import SelectorSyntax.Proofs.Spelling.Alone
import SelectorSyntax.Proofs.Spelling.Completeness

namespace SelectorSyntax.Selector.Spelling

open Grammar Expression Text OfNodes SelectorSyntax.Bracket

variable {d : Nat} {o c : Char} {q : Rule} {n s t w y : List Char} {ms ns : List Node} {ps : List Parameter}

/-! Brackets around a text that is read by itself. -/

theorem depth_of_parse (ht : parseTextFragment t d = .ok (.list ps)) : Parameter.depthOfAll ps ≤ d := by
  obtain ⟨root, qs, hm, hqs, h⟩ := parseTextFragment_eq_ok ht
  cases h
  calc
    Parameter.depthOfAll ps ≤ Node.nestingOfAll root.children := depth_argumentItems hqs
    _ ≤ root.nesting := nestingOfAll_children_le root
    _ ≤ d := nesting_le (r := .text) trivial rfl hm

/-- The brackets and what is between them are a group, which is read as what is between them is read by itself. -/
theorem run_group_of_parse (ht : parseTextFragment t d = .ok (.list ps)) (hb : body q = .exactly c)
    (hcl : q ∈ [.parenClose, .bracketClose]) (hc : Closing [c]) (hm : Mute [c]) :
    ∃ ms, (group o q).run Rule.run (o :: (t ++ [c])) = some ([], ms ++ [⟨q, [c], [], []⟩]) ∧ ReadAs ms ps ∧
      Node.nestingOfAll (ms ++ [⟨q, [c], [], []⟩]) ≤ d := by
  obtain ⟨qs, hitems, hqs⟩ := itemsOf_parse ht
  cases hqs
  have hin := inside_of_itemsOf hitems (guards_mute hm) trivial hc
  obtain ⟨ms, hrun, hread⟩ := run_group_of_itemsOf (o := o) hb (isSilent_of_closer hcl) hitems hin
  have hclose : Node.nesting ⟨q, [c], [], []⟩ = 0 := by
    simp only [List.mem_cons, List.not_mem_nil, or_false] at hcl
    rcases hcl with rfl | rfl <;> rfl
  refine ⟨ms, hrun, hread, ?_⟩
  rw [Node.nestingOfAll_append, Node.nestingOfAll_cons, hclose, Node.nestingOfAll_nil, Nat.max_self, Nat.max_zero]
  exact Nat.le_trans hread.nesting_le (depth_of_parse ht)

theorem groupItems_closed {t u : List Char} (h : ReadAs ms ps) (hcl : q ∈ [.parenClose, .bracketClose]) :
    groupItems (ms ++ [⟨q, t, u, []⟩]) = .ok (ps ++ [.text (String.ofList (Place.between t u))]) := by
  have hclose : groupItems [⟨q, t, u, []⟩] = .ok [.text (String.ofList (Place.between t u))] := by
    simp only [List.mem_cons, List.not_mem_nil, or_false] at hcl
    rcases hcl with rfl | rfl <;> rfl
  cases h with
  | nothing => exact hclose
  | argument _ hps => exact groupItems_argument hps hclose

/-- A text that is a group and nothing else is read as one list. -/
theorem parse_group (h : Rule.argGroup.run (o :: s) = some ([], [⟨.argGroup, o :: s, [], ns⟩])) (ho : isOpener o = true)
    (hns : groupItems ns = .ok ps) (hd : Node.nestingOfAll ns ≤ d) :
    parseTextFragment (o :: s) (d + 1) = .ok (.list [.list (.text (String.ofList [o]) :: ps)]) := by
  have hsettled : Blank.Settled (o :: s) := by
    rcases opener_cases ho with rfl | rfl <;> exact settled_of_head rfl (by decide) s
  have hitem : argItem.run Rule.run (o :: s) = some ([], [⟨.argGroup, o :: s, [], ns⟩]) := 
    run_choices_of [call .string, call .number, call .ident] (run_opener_none ho s) h
  have hargument : Rule.argument.run (o :: s) = some ([], [⟨.argument, o :: s, [], [⟨.argGroup, o :: s, [], ns⟩]⟩]) :=
    (Rule.run_node rfl).2 ⟨_, run_seq_eq_some.2 ⟨[], _, [], hitem, run_star_nil rfl, rfl⟩, rfl⟩
  have htext : Rule.text.run (o :: s) = some ([], [⟨.text, o :: s, [],
      [⟨.argument, o :: s, [], [⟨.argGroup, o :: s, [], ns⟩]⟩, ⟨.endOfInput, [], [], []⟩]⟩]) := by
    refine run_text_eq_some.2 ⟨[], [⟨.argument, o :: s, [], [⟨.argGroup, o :: s, [], ns⟩]⟩], ?_, Blank.skip_nil, rfl, rfl⟩
    rw [hsettled.skip_eq]
    exact run_maybe_eq_some.2 (Or.inl hargument)
  have hitems : items [⟨.argGroup, o :: s, [], ns⟩] = .ok [.list (.text (String.ofList [o]) :: ps)] := by
    refine items_cons_of_ok ?_ rfl
    rw [item, hns]
    rfl
  have hend : Node.nesting ⟨.endOfInput, [], [], []⟩ = 0 := rfl
  obtain ⟨report, hscan⟩ := exists_scan (d := d + 1) (r := .text) trivial rfl htext (by
    simp only [Node.nesting_plain (r := .text) rfl, Node.nesting_plain (r := .argument) rfl,
      Node.nesting_bracketed (r := .argGroup) rfl, Node.nestingOfAll_cons, Node.nestingOfAll_nil, hend]
    omega)
  refine parseTextFragment_of_run hscan htext ?_
  rw [OfNodes.text, argumentItems_some, hitems]
  rfl

/-! A name and a text in parentheses behind it. -/

/-- A name that is decoded to none that takes a number is not taken for one. -/
theorem run_nthName_none_of_decode (hw : Rule.ident.run w = some ([], ns)) (hn : Identifier.decode w = .ok n)
    (hp : AnPlusB.isPseudoName (String.ofList n) = false) (y : List Char) : Rule.nthName.run (w ++ '(' :: y) = none := by
  cases hrun : Rule.nthName.run (w ++ '(' :: y) with
  | none => rfl
  | some z =>
      obtain ⟨u, k, hu, hs, hk, -⟩ := run_nthName_eq_some.1 hrun
      rw [hk] at hs
      have hplain := run_ident_of_isPseudoName hu k
      rw [← hs, run_ident_paren hw y] at hplain
      cases hplain
      obtain rfl := List.append_cancel_right hs
      obtain ⟨c, v, rfl, hc, hv⟩ := plain_of_isPseudoName hu
      have hescape : '\\' ∉ c :: v := by
        intro hmem
        rcases List.mem_cons.1 hmem with rfl | hmem
        · cases hc
        · cases hv _ hmem
      rw [Identifier.decode_of_not_mem hescape hn, hu] at hp
      cases hp

/-- The parameter of a name is what the text in its parentheses is read as. -/
theorem run_pseudo (ht : parseTextFragment t d = .ok (.list ps)) (hw : Rule.ident.run w = some ([], ns))
    (hn : Identifier.decode w = .ok n) (hp : AnPlusB.isPseudoName (String.ofList n) = false) :
    ∃ ns, Grammar.pseudoTail.run Rule.run (w ++ '(' :: (t ++ [')'])) = some ([], ns) ∧ Node.nestingOfAll ns ≤ d + 1 ∧
      ∀ r s, OfNodes.pseudo ⟨r, s, [], ns⟩ = .ok ⟨String.ofList n, some (.list ps)⟩ := by
  obtain ⟨ms, hgroup, hread, hd⟩ := run_group_of_parse (o := '(') (q := .parenClose) ht rfl (by decide)
    (fun c r h => Or.inl (List.cons.inj h).1.symm) ⟨by decide, by decide⟩
  have harguments : Rule.arguments.run ('(' :: (t ++ [')'])) = some ([],
      [⟨.arguments, '(' :: (t ++ [')']), [], ms ++ [⟨.parenClose, [')'], [], []⟩]⟩]) :=
    (Rule.run_node rfl).2 ⟨_, hgroup, rfl⟩
  have hnone := run_nthName_none_of_decode hw hn hp (t ++ [')'])
  refine ⟨_, run_pseudoTail_named (run_ident_paren hw _) hnone harguments, ?_, fun r s => ?_⟩
  · have hname : Node.nesting ⟨.ident, w ++ '(' :: (t ++ [')']), '(' :: (t ++ [')']), []⟩ = 0 := rfl
    simp only [Node.nestingOfAll_cons, Node.nestingOfAll_nil, hname, Node.nesting_bracketed (r := .arguments) rfl]
    exact Nat.max_le.2 ⟨Nat.zero_le _, Nat.max_le.2 ⟨Nat.succ_le_succ hd, Nat.zero_le _⟩⟩
  · have hname : pseudoName ⟨.ident, w ++ '(' :: (t ++ [')']), '(' :: (t ++ [')']), []⟩ = .ok (String.ofList n) := by
      simp only [pseudoName, OfNodes.identifier, Node.text, Place.between_append, hn]
    have hitems : argumentItems ⟨.arguments, '(' :: (t ++ [')']), [], ms ++ [⟨.parenClose, [')'], [], []⟩]⟩ = .ok ps :=
      hread.argumentItems (by simp)
    rw [pseudo_eq hname, pseudoParameter]
    simp only [hp, Bool.false_eq_true, if_false]
    rw [hitems]
    rfl

/-- A simple selector that is all there is. -/
theorem parse_of_simple {m : Node} {c : CompoundSelector} (hm : simpleSelector.run Rule.run s = some ([], [m]))
    (hc : addSimple .empty m = .ok c) (hd : m.nesting ≤ d) : parseSelectorList s d = .ok [⟨c, []⟩] := by
  have hrun := run_alone hm
  obtain ⟨report, hs⟩ := scan_of_nesting hrun (nesting_alone s m ▸ hd)
  exact parseSelectorList_of_run hs hrun (by rw [selectors_alone, hc]; rfl)

theorem parse_pseudos (ht : parseTextFragment t d = .ok (.list ps)) (hw : Rule.ident.run w = some ([], ns))
    (hn : Identifier.decode w = .ok n) (hp : AnPlusB.isPseudoName (String.ofList n) = false) :
    parseSelectorList (':' :: (w ++ '(' :: (t ++ [')']))) (d + 1) =
        .ok [⟨⟨none, [.pseudoClass ⟨String.ofList n, some (.list ps)⟩], []⟩, []⟩] ∧
      parseSelectorList (':' :: ':' :: (w ++ '(' :: (t ++ [')']))) (d + 1) =
        .ok [⟨⟨none, [], [.pseudoElement ⟨String.ofList n, some (.list ps)⟩]⟩, []⟩] := by
  obtain ⟨ks, htail, hd, hread⟩ := run_pseudo ht hw hn hp
  constructor
  · have hrun := (Rule.run_node (r := .pseudoClass) rfl).2
      ⟨_, run_seq_eq_some.2 ⟨_, [], _, run_exactly_cons ':', htail, rfl⟩, rfl⟩
    refine parse_of_simple (run_simple_pseudoClass (ne_colon_of_ident (run_ident_paren hw _)) hrun) ?_ hd
    rw [addSimple_pseudoClass rfl]
    exact congrArg (Except.map _) (hread _ _)
  · have hcolons : (literal "::").run Rule.run (':' :: ':' :: (w ++ '(' :: (t ++ [')']))) =
        some (w ++ '(' :: (t ++ [')']), []) := run_literal_eq_some.2 ⟨rfl, rfl⟩
    have hrun := (Rule.run_node (r := .pseudoElement) rfl).2
      ⟨_, run_seq_eq_some.2 ⟨_, [], _, hcolons, htail, rfl⟩, rfl⟩
    refine parse_of_simple (run_simple_pseudoElement hrun) ?_ hd
    rw [addSimple_pseudoElement rfl]
    exact congrArg (Except.map _) (hread _ _)

end SelectorSyntax.Selector.Spelling

namespace SelectorSyntax

open Grammar Selector Text

/-- A text is read as the same items by itself, in the parentheses of a pseudo-class or a pseudo-element, and in a
group. -/
theorem parseTextFragment_in_brackets {t : List Char} {d : Nat} {v : Parameter} (ht : parseTextFragment t d = .ok v) :
    (∀ (w : List Char) (ns : List Node) (n : List Char), Rule.ident.run w = some ([], ns) → Identifier.decode w = .ok n →
      AnPlusB.isPseudoName (String.ofList n) = false →
      parseSelectorList (':' :: (w ++ '(' :: (t ++ [')']))) (d + 1) =
          .ok [⟨⟨none, [.pseudoClass ⟨String.ofList n, some v⟩], []⟩, []⟩] ∧
        parseSelectorList (':' :: ':' :: (w ++ '(' :: (t ++ [')']))) (d + 1) =
          .ok [⟨⟨none, [], [.pseudoElement ⟨String.ofList n, some v⟩]⟩, []⟩]) ∧
    ∃ items, v = .list items ∧
      parseTextFragment ('(' :: (t ++ [')'])) (d + 1) = .ok (.list [.list (.text "(" :: (items ++ [.text ")"]))]) ∧
      parseTextFragment ('[' :: (t ++ [']'])) (d + 1) = .ok (.list [.list (.text "[" :: (items ++ [.text "]"]))]) := by
  obtain ⟨ps, -, rfl⟩ := Spelling.itemsOf_parse ht
  refine ⟨fun w ns n hw hn hp => Spelling.parse_pseudos ht hw hn hp, ps, rfl, ?_, ?_⟩
  · obtain ⟨ms, hgroup, hread, hd⟩ := Spelling.run_group_of_parse (o := '(') (q := .parenClose) ht rfl (by decide)
      (fun c r h => Or.inl (List.cons.inj h).1.symm) ⟨by decide, by decide⟩
    have hrun := (Rule.run_node (r := .argGroup) rfl).2 ⟨_, Expression.run_choice_eq_some.2 (Or.inl hgroup), rfl⟩
    exact Spelling.parse_group hrun rfl (Spelling.groupItems_closed hread (by decide)) hd
  · obtain ⟨ms, hgroup, hread, hd⟩ := Spelling.run_group_of_parse (o := '[') (q := .bracketClose) ht rfl (by decide)
      (fun c r h => Or.inr (List.cons.inj h).1.symm) ⟨by decide, by decide⟩
    have hparen := Spelling.run_group_none (o := '(') (c := '[') (r := .parenClose) (by decide) (t ++ [']'])
    have hrun := (Rule.run_node (r := .argGroup) rfl).2
      ⟨_, Expression.run_choice_eq_some.2 (Or.inr ⟨hparen, hgroup⟩), rfl⟩
    exact Spelling.parse_group hrun rfl (Spelling.groupItems_closed hread (by decide)) hd

/-- A comment that does not close, in three places. -/
theorem parseTextFragment_in_brackets_unclosed :
    parseTextFragment "[b] /*c".toList 1 =
        .ok (.list [.list [.text "[", .text "b", .text "]"], .text " ", .text "/", .text "*", .text "c"]) ∧
      parseSelectorList ":\\69 s([b] /*c)".toList 2 = .ok [⟨⟨none, [.pseudoClass ⟨"is", some (.list
        [.list [.text "[", .text "b", .text "]"], .text " ", .text "/", .text "*", .text "c"])⟩], []⟩, []⟩] ∧
      parseSelectorList "::\\69 s([b] /*c)".toList 2 = .ok [⟨⟨none, [], [.pseudoElement ⟨"is", some (.list
        [.list [.text "[", .text "b", .text "]"], .text " ", .text "/", .text "*", .text "c"])⟩]⟩, []⟩] ∧
      parseTextFragment "([b] /*c)".toList 2 = .ok (.list [.list
        [.text "(", .list [.text "[", .text "b", .text "]"], .text " ", .text "/", .text "*", .text "c", .text ")"]]) := by
  have ht : parseTextFragment "[b] /*c".toList 1 =
      .ok (.list [.list [.text "[", .text "b", .text "]"], .text " ", .text "/", .text "*", .text "c"]) := by cbv
  have hw : Rule.ident.run "\\69 s".toList = some ([], [⟨.ident, "\\69 s".toList, [], []⟩]) := by cbv
  have hn : Identifier.decode "\\69 s".toList = .ok "is".toList := by cbv
  obtain ⟨hpseudos, items, hv, hparen, -⟩ := parseTextFragment_in_brackets ht
  cases hv
  obtain ⟨hclass, helement⟩ := hpseudos _ _ _ hw hn (by decide)
  exact ⟨ht, hclass, helement, hparen⟩

end SelectorSyntax
