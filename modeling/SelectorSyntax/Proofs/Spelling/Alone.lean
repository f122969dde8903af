import SelectorSyntax.Proofs.Completion.Compounds

namespace SelectorSyntax.Selector.Spelling

open Diagnostic Grammar Expression Text OfNodes SelectorSyntax.Bracket

variable {d : Nat} {a c m : Node} {r : Rule} {s t w x y : List Char} {ns : List Node} {report : Report}

/-! A text that is one simple selector and nothing else. -/

theorem settled_colon (x : List Char) : Blank.Settled (':' :: x) := settled_of_head rfl (by decide) x

theorem run_maybe_ws_colon (x : List Char) : (maybe ws).run Rule.run (':' :: x) = some (':' :: x, []) := by
  rw [Blank.run_maybe_ws, (settled_colon x).skip_eq]

theorem run_star_nil {e : Expression} (he : e.takes = true) : (star e).run Rule.run [] = some ([], []) :=
  (run_star_eq_some Rule.lawful_run he).2 (.stop (run_nil_eq_none he))

theorem run_typeSelector_colon (x : List Char) : (call .typeSelector).run Rule.run (':' :: x) = none :=
  run_begins_none rfl rfl x

theorem run_simple_pseudoClass (hx : ∀ r, x ≠ ':' :: r) (hm : Rule.pseudoClass.run (':' :: x) = some (t, [m])) :
    simpleSelector.run Rule.run (':' :: x) = some (t, [m]) :=
  run_choices_of [call .idSelector, call .classSelector, call .attributeSelector, call .pseudoElement]
    (run_earlier_none hx) hm

theorem run_simple_pseudoElement (hm : Rule.pseudoElement.run (':' :: x) = some (t, [m])) :
    simpleSelector.run Rule.run (':' :: x) = some (t, [m]) :=
  run_choices_of [call .idSelector, call .classSelector, call .attributeSelector] (run_marked_none x) hm

/-- The nodes above a simple selector that is all there is. -/
def alone (s : List Char) (m : Node) : Node :=
  ⟨.selectors, s, [], [⟨.selectorList, s, [], [⟨.complexSelector, s, [], [⟨.compoundSelector, s, [], [m]⟩]⟩]⟩,
    ⟨.endOfInput, [], [], []⟩]⟩

theorem run_alone (hm : simpleSelector.run Rule.run s = some ([], [m])) :
    Rule.selectors.run s = some ([], [alone s m]) := by
  have htype : (seq (call .typeSelector) (star simpleSelector)).run Rule.run s = none :=
    run_seq_eq_none.2 (Or.inl (run_type_none ⟨_, hm⟩))
  have hstart : (maybe ws).run Rule.run s = some (s, []) := by
    obtain ⟨c, y, rfl, hc⟩ := mark_of_simple ⟨_, hm⟩
    rw [Blank.run_maybe_ws, (settled_of_mem marks rfl hc y).skip_eq]
  have hcompound := (Rule.run_node (r := .compoundSelector) rfl).2
    ⟨_, run_choice_eq_some.2 (Or.inr ⟨htype, run_seq_eq_some.2 ⟨[], [m], [], hm, run_star_nil rfl, rfl⟩⟩), rfl⟩
  have hcomplex := (Rule.run_node (r := .complexSelector) rfl).2
    ⟨_, run_seq_eq_some.2 ⟨[], _, [], hcompound, run_star_nil rfl, rfl⟩, rfl⟩
  have hlist := (Rule.run_node (r := .selectorList) rfl).2
    ⟨_, run_seq_eq_some.2 ⟨[], _, [], hcomplex, run_star_nil rfl, rfl⟩, rfl⟩
  have hblank : (maybe ws).run Rule.run [] = some ([], []) := by rw [Blank.run_maybe_ws, Blank.skip_nil]
  have hend : Rule.endOfInput.run [] = some ([], [⟨.endOfInput, [], [], []⟩]) :=
    Rule.run_endOfInput_eq_some.2 ⟨rfl, rfl, rfl⟩
  exact (Rule.run_node (r := .selectors) rfl).2 ⟨_, run_seq_eq_some.2 ⟨_, [], _, hstart,
    run_seq_eq_some.2 ⟨[], _, _, hlist, run_seq_eq_some.2 ⟨[], [], _, hblank, hend, rfl⟩, rfl⟩, rfl⟩, rfl⟩

theorem selectors_alone (s : List Char) (m : Node) :
    OfNodes.selectors (alone s m) = (addSimple .empty m).map fun c => [⟨c, []⟩] := by
  have hcompound : compound ⟨.compoundSelector, s, [], [m]⟩ = addSimple .empty m := by
    rw [compound, List.foldlM_cons]
    cases addSimple .empty m <;> rfl
  have hcomplex : complex ⟨.complexSelector, s, [], [⟨.compoundSelector, s, [], [m]⟩]⟩ =
      (addSimple .empty m).map fun c => ⟨c, []⟩ := by
    rw [complex]
    simp only [hcompound]
    cases addSimple .empty m <;> rfl
  have hlist : selectorList ⟨.selectorList, s, [], [⟨.complexSelector, s, [], [⟨.compoundSelector, s, [], [m]⟩]⟩]⟩ =
      (addSimple .empty m).map fun c => [⟨c, []⟩] := by
    rw [selectorList, List.filter_cons_of_pos rfl, List.filter_nil, List.mapM_cons, hcomplex]
    cases addSimple .empty m <;> rfl
  exact hlist

theorem nesting_alone (s : List Char) (m : Node) : (alone s m).nesting = m.nesting := by
  have hend : Node.nesting ⟨.endOfInput, [], [], []⟩ = 0 := rfl
  simp only [alone, Node.nesting_plain (r := .selectors) rfl, Node.nesting_plain (r := .selectorList) rfl,
    Node.nesting_plain (r := .complexSelector) rfl, Node.nesting_plain (r := .compoundSelector) rfl, hend,
    Node.nestingOfAll_cons, Node.nestingOfAll_nil, Nat.max_zero]

theorem addSimple_pseudoClass (hr : m.rule = .pseudoClass) :
    addSimple .empty m = (OfNodes.pseudo m).map fun p => ⟨none, [.pseudoClass p], []⟩ := by
  have hnone : CompoundSelector.empty.pseudoElement? = none := rfl
  rw [addSimple, hnone]
  simp only [hr]
  rfl

theorem addSimple_pseudoElement (hr : m.rule = .pseudoElement) :
    addSimple .empty m = (OfNodes.pseudo m).map fun p => ⟨none, [], [.pseudoElement p]⟩ := by
  have hnone : CompoundSelector.empty.pseudoElement? = none := rfl
  rw [addSimple, hnone]
  simp only [hr]
  rfl

/-- A text that is one pseudo-class is read as that. -/
theorem parse_pseudoClass (hs : scan (':' :: x) d = .ok report) (hx : ∀ r, x ≠ ':' :: r)
    (hm : Rule.pseudoClass.run (':' :: x) = some ([], [m])) :
    parseSelectorList (':' :: x) d =
      ((OfNodes.pseudo m).map fun p => [⟨⟨none, [.pseudoClass p], []⟩, []⟩]).mapError (.ofDefect (':' :: x)) := by
  obtain ⟨k, hk, hr, -⟩ := Rule.isMatch_of_run rfl hm
  cases hk
  rw [parseSelectorList, matchRoot_of_run hs (run_alone (run_simple_pseudoClass hx hm))]
  refine congrArg (Except.mapError (SyntaxError.ofDefect (':' :: x))) ?_
  rw [selectors_alone, addSimple_pseudoClass hr]
  cases OfNodes.pseudo m <;> rfl

/-! Its name and its parameter. -/

theorem pseudo_eq {name : String} (hc : pseudoName c = .ok name) :
    OfNodes.pseudo ⟨r, s, t, [c, a]⟩ = (pseudoParameter name a).map fun p => ⟨name, some p⟩ := by
  rw [OfNodes.pseudo]
  simp only [hc]
  change (pseudoParameter name a >>= fun p => pure _) = _
  cases pseudoParameter name a <;> rfl

theorem ne_colon_of_ident (h : Rule.ident.run x = some (t, ns)) (s : List Char) : x ≠ ':' :: s := by
  rintro rfl
  have hnone : (call .ident).run Rule.run (':' :: s) = none := run_begins_none rfl rfl s
  cases hnone.symm.trans h

theorem run_ident_paren (h : Rule.ident.run w = some ([], ns)) (y : List Char) :
    Rule.ident.run (w ++ '(' :: y) = some ('(' :: y, [⟨.ident, w ++ '(' :: y, '(' :: y, []⟩]) :=
  run_ident_replace (s := w) (t := []) (u := []) (by rwa [List.append_nil]) (stops_paren y).run_nmchar
    (Or.inr (.cons rfl rfl))

/-- Behind a name that takes no number the grammar takes any argument. -/
theorem run_pseudoTail_named
    (hident : Rule.ident.run (w ++ '(' :: y) = some ('(' :: y, [⟨.ident, w ++ '(' :: y, '(' :: y, []⟩]))
    (hnone : Rule.nthName.run (w ++ '(' :: y) = none) (ha : Rule.arguments.run ('(' :: y) = some (t, [a])) :
    Grammar.pseudoTail.run Rule.run (w ++ '(' :: y) = some (t, [⟨.ident, w ++ '(' :: y, '(' :: y, []⟩, a]) := by
  have hplain : (seq (call .nthName) (call .nthArguments)).run Rule.run (w ++ '(' :: y) = none :=
    run_seq_eq_none.2 (Or.inl hnone)
  refine run_choice_eq_some.2 (Or.inr ⟨hplain, ?_⟩)
  refine run_seq_eq_some.2 ⟨_, [], _, run_absent_eq_some.2 ⟨hnone, rfl, rfl⟩, ?_, rfl⟩
  exact run_seq_eq_some.2 ⟨_, _, [a], hident, run_maybe_eq_some.2 (Or.inl ha), rfl⟩

end SelectorSyntax.Selector.Spelling
