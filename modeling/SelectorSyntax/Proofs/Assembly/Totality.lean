import SelectorSyntax.Proofs.Assembly.Results
import SelectorSyntax.Proofs.Grammar.Tree
import SelectorSyntax.Proofs.Spelling.NthText

namespace SelectorSyntax.Selector.OfNodes

open Grammar Text

variable {n : Node} {ns : List Node} {r : Rule} {s t : List Char}

/-- What is read from a node on its own is there to be read. -/
structure Legible (n : Node) : Prop where
  ident : n.rule = .ident → ∃ v, Identifier.decode n.text = .ok v
  string : n.rule = .string → ∃ v, Quoted.decode n.text = some v
  nthValue : n.rule = .nthValue → AnPlusB.read n.text ≠ .error .invalid

theorem legible (h : n.IsMatch) : Legible n := by
  have hs := h.text_append.symm
  have hrun := h.2
  constructor
  · intro hr
    rw [hr] at hrun
    exact Identifier.exists_decode hrun hs
  · intro hr
    rw [hr] at hrun
    obtain ⟨v, hv, -⟩ := Quoted.run_string_iff_read.1 ⟨_, hrun⟩
    rw [hs] at hv
    have hw := Quoted.read_append hv []
    rw [List.append_nil] at hw
    exact ⟨v, by rw [Quoted.decode, hw, Option.map_some]⟩
  · intro hr
    rw [hr] at hrun
    exact Spelling.read_ne_invalid (Spelling.nth_of_run hrun hs)

theorem exists_identifier (h : n.IsMatch) (hr : n.rule = .ident) : ∃ v, identifier n = .ok v := by
  obtain ⟨v, hv⟩ := (legible h).ident hr
  exact ⟨String.ofList v, by rw [identifier, hv]⟩

theorem exists_quoted (h : n.IsMatch) (hr : n.rule = .string) : ∃ v, quoted n = .ok v := by
  obtain ⟨v, hv⟩ := (legible h).string hr
  exact ⟨String.ofList v, by rw [quoted, hv]⟩

/-! The items of arguments: whatever the grammar takes for one is made into one. -/

theorem rule_of_argument (h : r ∈ (body .argument).callees) :
    r ∈ [.string, .number, .ident, .argDelim] ∨ r = .argSpace ∨ r = .argGroup := by
  have hsub : (body .argument).callees ⊆ [.string, .number, .ident, .argDelim, .argSpace, .argGroup] := by decide
  simpa [or_assoc] using hsub h

theorem rule_of_argGroup (h : r ∈ (body .argGroup).callees) :
    r = .argument ∨ r ∈ [.parenClose, .bracketClose] := by
  have hsub : (body .argGroup).callees ⊆ [.argument, .parenClose, .bracketClose] := by decide
  simpa using hsub h

mutual

theorem exists_item : ∀ n : Node, n.IsMatch → n.rule ∈ (body .argument).callees → ∃ p, item n = .ok p
  | ⟨r, s, t, ns⟩, h, hr => by
      rcases rule_of_argument hr with hr | rfl | rfl
      · simp only [List.mem_cons, List.not_mem_nil, or_false] at hr
        rcases hr with rfl | rfl | rfl | rfl <;> exact ⟨_, by rw [item]⟩
      · exact ⟨_, by rw [item]⟩
      · obtain ⟨ps, hps⟩ := exists_groupItems ns fun m hm => (h.child hm).symm
        exact ⟨_, by rw [item, hps]; rfl⟩

theorem exists_items : ∀ ns : List Node, (∀ n ∈ ns, n.IsMatch ∧ n.rule ∈ (body .argument).callees) →
    ∃ ps, items ns = .ok ps
  | [], _ => ⟨[], rfl⟩
  | n :: ns, h => by
      obtain ⟨hn, hns⟩ := List.forall_mem_cons.1 h
      obtain ⟨p, hp⟩ := exists_item n hn.1 hn.2
      obtain ⟨ps, hps⟩ := exists_items ns hns
      exact ⟨p :: ps, Spelling.items_cons_of_ok hp hps⟩

theorem exists_groupItems : ∀ ns : List Node, (∀ n ∈ ns, n.IsMatch ∧ n.rule ∈ (body .argGroup).callees) →
    ∃ ps, groupItems ns = .ok ps
  | [], _ => ⟨[], rfl⟩
  | ⟨r, s, t, ms⟩ :: ns, h => by
      obtain ⟨hn, hns⟩ := List.forall_mem_cons.1 h
      obtain ⟨qs, hqs⟩ := exists_groupItems ns hns
      rcases rule_of_argGroup hn.2 with rfl | hr
      · obtain ⟨ps, hps⟩ := exists_items ms fun m hm => (hn.1.child hm).symm
        exact ⟨_, Spelling.groupItems_argument hps hqs⟩
      · simp only [List.mem_cons, List.not_mem_nil, or_false] at hr
        rcases hr with rfl | rfl <;> exact ⟨_, by rw [groupItems, hqs]; rfl⟩

end

theorem child?_isMatch {m : Node} (h : n.IsMatch) (hm : child? n r = some m) : m.IsMatch ∧ m.rule = r :=
  ⟨(h.child (child?_mem hm).1).2, (child?_mem hm).2⟩

theorem exists_argumentItems (h : n.IsMatch) : ∃ ps, argumentItems n = .ok ps := by
  rw [argumentItems]
  split
  next a ha =>
    obtain ⟨ham, har⟩ := child?_isMatch h ha
    exact exists_items a.children fun m hm => (har ▸ ham.child hm).symm
  next => exact ⟨[], rfl⟩

/-! What selectors are made of apart from arguments. -/

theorem exists_typeName (h : n.IsMatch) (hr : n.rule = .typeSelector) : ∃ v, typeName n = .ok v := by
  have hs : n.children.map Node.rule ∈ [[.universal], [.ident]] := h.shape hr rfl rfl
  simp only [List.mem_cons, List.not_mem_nil, or_false, List.map_eq_singleton_iff] at hs
  rw [typeName]
  rcases hs with ⟨c, hc, hcr⟩ | ⟨c, hc, hcr⟩
  · exact ⟨"*", by simp [hc, hcr]⟩
  · obtain ⟨v, hv⟩ := exists_identifier (h.child (hc ▸ List.mem_cons_self)).2 hcr
    exact ⟨v, by simp [hc, hcr, hv]⟩

theorem exists_markedName (h : n.IsMatch) (hr : n.rule = .idSelector ∨ n.rule = .classSelector) :
    ∃ v, markedName n = .ok v := by
  have hs : n.children.map Node.rule = [.ident] := by
    rcases hr with hr | hr <;> exact List.mem_singleton.1 (h.shape hr rfl rfl)
  obtain ⟨c, hc, hcr⟩ := List.map_eq_singleton_iff.1 hs
  obtain ⟨v, hv⟩ := exists_identifier (h.child (hc ▸ List.mem_cons_self)).2 hcr
  exact ⟨v, by simp [markedName, hc, hv]⟩

theorem exists_matcher (h : n.IsMatch) (hr : n.rule = .attributeMatcher) : ∃ m, matcher n = .ok m := by
  have hrun := h.2
  rw [hr] at hrun
  obtain ⟨ms, hm, -⟩ := (Rule.run_node rfl).1 hrun
  obtain ⟨e, he, hm⟩ := Expression.run_choices_some hm
  obtain ⟨w, hw, rfl⟩ := List.mem_map.1 he
  obtain ⟨hs, -⟩ := Expression.run_literal_eq_some.1 hm
  have htext : n.text = w.toList := by rw [Node.text, hs, Place.between_append]
  have hall : ∀ w ∈ ["~=", "|=", "^=", "$=", "*=", "="], (AttributeMatcher.ofSymbol? w).isSome := by decide
  obtain ⟨m, hm⟩ := Option.isSome_iff_exists.1 (hall w hw)
  exact ⟨m, by rw [matcher, htext, String.ofList_toList, hm]⟩

theorem exists_attributeValue (h : n.IsMatch) (hr : n.rule = .string ∨ n.rule = .ident) :
    ∃ v, attributeValue n = .ok v := by
  rw [attributeValue]
  rcases hr with hr | hr
  · obtain ⟨v, hv⟩ := exists_quoted h hr
    exact ⟨⟨true, v⟩, by rw [hr, hv]; rfl⟩
  · obtain ⟨v, hv⟩ := exists_identifier h hr
    exact ⟨⟨false, v⟩, by rw [hr, hv]; rfl⟩

theorem exists_attributeMatch {m v : Node} (hm : m.IsMatch) (hmr : m.rule = .attributeMatcher) (hv : v.IsMatch)
    (hvr : v.rule = .string ∨ v.rule = .ident) (hns : ns.length = 1 ∨ ns.length = 2) (place : List Char) :
    ∃ x, attributeMatch place (m :: v :: ns) = .ok x := by
  obtain ⟨x, hx⟩ := exists_matcher hm hmr
  obtain ⟨y, hy⟩ := exists_attributeValue hv hvr
  rcases hns with hns | hns
  · obtain ⟨c, rfl⟩ := List.length_eq_one_iff.1 hns
    exact ⟨_, by rw [attributeMatch, hx, hy]; rfl⟩
  · obtain ⟨f, c, rfl⟩ := List.length_eq_two.1 hns
    exact ⟨_, by rw [attributeMatch, hx, hy]; rfl⟩

theorem exists_attributeSelector (h : n.IsMatch) (hr : n.rule = .attributeSelector) :
    ∃ a, attributeSelector n = .ok a := by
  have hall : ∀ x ∈ (body .attributeSelector).shapes, x = [.ident, .bracketClose] ∨
      ∃ v ∈ [Rule.string, .ident], ∃ k ∈ [[Rule.bracketClose], [.attributeModifier, .bracketClose]],
        x = .ident :: .attributeMatcher :: v :: k := by decide
  have hchild (m : Node) (hm : m ∈ n.children) : m.IsMatch := (h.child hm).2
  rw [attributeSelector]
  rcases hall _ (h.shape hr rfl rfl) with hs | ⟨r, hr, k, hk, hs⟩
  · obtain ⟨name, _, hch, hname, hs⟩ := List.map_eq_cons_iff.1 hs
    obtain ⟨c, rfl, -⟩ := List.map_eq_singleton_iff.1 hs
    obtain ⟨x, hx⟩ := exists_identifier (hchild name (by simp [hch])) hname
    exact ⟨⟨x, none⟩, by simp only [hch, hx]; rfl⟩
  · obtain ⟨name, _, hch, hname, hs⟩ := List.map_eq_cons_iff.1 hs
    obtain ⟨m, _, rfl, hm, hs⟩ := List.map_eq_cons_iff.1 hs
    obtain ⟨v, ns, rfl, hv, rfl⟩ := List.map_eq_cons_iff.1 hs
    have hns : ns.length = 1 ∨ ns.length = 2 := by
      simp only [List.mem_cons, List.not_mem_nil, or_false] at hk
      exact hk.imp (fun hk => by simpa using congrArg List.length hk) fun hk => by simpa using congrArg List.length hk
    obtain ⟨x, hx⟩ := exists_identifier (hchild name (by simp [hch])) hname
    obtain ⟨y, hy⟩ := exists_attributeMatch (hchild m (by simp [hch])) hm (hchild v (by simp [hch]))
      (by simpa [← hv] using hr) hns n.start
    exact ⟨⟨x, y⟩, by simp only [hch, hx, hy]; rfl⟩

theorem exists_combinator (h : n.IsMatch) (hr : n.rule = .combinator) : ∃ k, combinator n = .ok k := by
  have hsub : (body .combinator).shapes ⊆ [[.combinatorSymbol], [.descendant]] := by decide
  have hs := hsub (h.shape hr rfl rfl)
  simp only [List.mem_cons, List.not_mem_nil, or_false, List.map_eq_singleton_iff] at hs
  rw [combinator]
  rcases hs with ⟨c, hc, hcr⟩ | ⟨c, hc, hcr⟩
  · have hrun := (h.child (hc ▸ List.mem_cons_self)).2.2
    rw [hcr] at hrun
    obtain ⟨ms, hm, -⟩ := (Rule.run_node rfl).1 hrun
    obtain ⟨w, hw, hs⟩ : ∃ w ∈ ["||", ">", "+", "~"], c.start = w.toList ++ c.stop := by
      obtain ⟨e, he, hm⟩ := Expression.run_choices_some hm
      simp only [List.mem_cons, List.not_mem_nil, or_false] at he
      rcases he with rfl | rfl | rfl | rfl <;> exact ⟨_, by simp, (Expression.run_literal_eq_some.1 hm).1⟩
    have htext : c.text = w.toList := by rw [Node.text, hs, Place.between_append]
    have hall : ∀ w ∈ ["||", ">", "+", "~"], (Combinator.ofSymbol? w).isSome := by decide
    obtain ⟨k, hk⟩ := Option.isSome_iff_exists.1 (hall w hw)
    exact ⟨k, by simp [hc, hcr, htext, hk]⟩
  · exact ⟨.descendant, by simp [hc, hcr]⟩

end SelectorSyntax.Selector.OfNodes

namespace SelectorSyntax

open Grammar Selector

theorem parseTextFragment_of_run {input t : List Char} {d : Nat} {root : Node} {report : Bracket.Report}
    {v : Parameter} (hs : Bracket.scan input d = .ok report) (hr : Rule.text.run input = some (t, [root]))
    (ho : OfNodes.text root = .ok v) : parseTextFragment input d = .ok v := by
  rw [parseTextFragment, matchRoot_of_run hs hr]
  exact congrArg (Except.mapError _) ho

theorem exists_parseTextFragment {input : List Char} {d : Nat} {report : Bracket.Report}
    {x : List Char × List Node} (hs : Bracket.scan input d = .ok report) (h : Rule.text.run input = some x) :
    ∃ v, parseTextFragment input d = .ok v := by
  obtain ⟨t, ns⟩ := x
  obtain ⟨root, rfl, -, -, -, hroot⟩ := Rule.isMatch_of_run rfl h
  obtain ⟨ps, hps⟩ := OfNodes.exists_argumentItems hroot
  refine ⟨.list ps, parseTextFragment_of_run hs h ?_⟩
  rw [OfNodes.text, hps]
  rfl

end SelectorSyntax
