import SelectorSyntax.Proofs.Diagnostic.Located
import SelectorSyntax.Proofs.Grammar.Tracking
import SelectorSyntax.Proofs.Spelling.Alone

namespace SelectorSyntax.Selector.Spelling

open Diagnostic Grammar Expression Text OfNodes SelectorSyntax.Bracket

variable {d n : Nat} {m : Node} {q r s t u x : List Char} {ns : List Node} {report : Report} {rule : Rule}

/-! Where a pseudo-class alone fails, all the rules above it do. -/

theorem run_compoundSelector_none (hx : ∀ r, x ≠ ':' :: r) (hm : Rule.pseudoClass.run (':' :: x) = none) :
    simpleSelector.run Rule.run (':' :: x) = none ∧ Rule.compoundSelector.run (':' :: x) = none := by
  have hsimple : simpleSelector.run Rule.run (':' :: x) = none := by
    refine run_choices_eq_none.2 fun e he => ?_
    rcases List.mem_append.1 (show e ∈ [call .idSelector, call .classSelector, call .attributeSelector,
      call .pseudoElement] ++ [call .pseudoClass] from he) with he | he
    · exact run_earlier_none hx e he
    · rw [List.mem_singleton.1 he]
      exact hm
  refine ⟨hsimple, Rule.run_eq_none.2 (run_choice_eq_none.2 ⟨?_, run_plus_eq_none.2 hsimple⟩)⟩
  exact run_seq_eq_none.2 (Or.inl (run_typeSelector_colon x))

theorem run_selectors_none (h : Rule.compoundSelector.run (':' :: x) = none) :
    Rule.complexSelector.run (':' :: x) = none ∧ Rule.selectorList.run (':' :: x) = none ∧
      Rule.selectors.run (':' :: x) = none := by
  have hcomplex : Rule.complexSelector.run (':' :: x) = none := Rule.run_eq_none.2 (run_seq_eq_none.2 (Or.inl h))
  have hlist : Rule.selectorList.run (':' :: x) = none := Rule.run_eq_none.2 (run_seq_eq_none.2 (Or.inl hcomplex))
  refine ⟨hcomplex, hlist, Rule.run_eq_none.2 (run_seq_eq_none.2 (Or.inr ⟨_, _, run_maybe_ws_colon x, ?_⟩))⟩
  exact run_seq_eq_none.2 (Or.inl hlist)

/-- A pseudo-class alone leaves behind what it leaves behind among selectors. -/
theorem leaves_selectors (hx : ∀ r, x ≠ ':' :: r) (hm : Rule.pseudoClass.run (':' :: x) = none)
    (h : (call .pseudoClass).Leaves (':' :: x) n rule) (hn : n < (':' :: x).length) :
    (call .selectors).Leaves (':' :: x) n rule := by
  obtain ⟨hsimple, hcompound⟩ := run_compoundSelector_none hx hm
  obtain ⟨hcomplex, hlist, -⟩ := run_selectors_none hcompound
  have hmarked {r : Rule} {e f : Expression} (hb : body r = seq e f) (he : e.callFree = true)
      (hr : e.run Rule.run (':' :: x) = none) : (call r).Quiet (':' :: x) n := by
    refine Quiet.call ?_ hn
    rw [hb]
    exact Quiet.seq_of_none (.callFree he) hr
  have htype : (seq (call .typeSelector) (star simpleSelector)).Quiet (':' :: x) n := by
    refine Quiet.seq_of_none (Quiet.call (Quiet.choice ?_ ?_) hn) (run_typeSelector_colon x)
    · exact Quiet.call (.callFree rfl) hn
    · exact Quiet.call (.callFree rfl) hn
  have hsimpleLeaves : simpleSelector.Leaves (':' :: x) n rule := by
    have hnone := run_earlier_none hx
    simp only [List.mem_cons, List.not_mem_nil, or_false, forall_eq_or_imp, forall_eq] at hnone
    obtain ⟨hid, hclass, hattribute, helement⟩ := hnone
    have hcolons : (literal "::").run Rule.run (':' :: x) = none := by
      refine run_literal_eq_none.2 ?_
      rintro ⟨t, ht⟩
      cases ht
      exact hx t rfl
    exact .choice_second (hmarked (r := .idSelector) rfl rfl rfl) hid
      (.choice_second (hmarked (r := .classSelector) rfl rfl rfl) hclass
        (.choice_second (hmarked (r := .attributeSelector) rfl rfl rfl) hattribute
          (.choice_second (hmarked (r := .pseudoElement) rfl rfl hcolons) helement h)))
  have hcompoundLeaves : (call .compoundSelector).Leaves (':' :: x) n rule :=
    .call (.choice_second htype (run_seq_eq_none.2 (Or.inl (run_typeSelector_colon x)))
      (.seq_first hsimpleLeaves hsimple)) hn
  have hlistLeaves : (call .selectorList).Leaves (':' :: x) n rule :=
    .call (.seq_first (.call (.seq_first hcompoundLeaves hcompound) hn) hcomplex) hn
  exact .call (.seq_second (.callFree rfl) (run_maybe_ws_colon x) (.seq_first hlistLeaves hlist)) hn

/-! Names that take a number, and what stands behind them. -/

variable {w y : List Char}

/-- Where no number stands in parentheses, either none begins there or the closing one is missing behind it. -/
theorem leaves_nthArguments (h : Rule.nthArguments.run ('(' :: y) = none) :
    ∃ n rule, n < ('(' :: y).length ∧ (call .nthArguments).Leaves ('(' :: y) n rule := by
  have hopen : (exactly '(').run Rule.run ('(' :: y) = some (y, []) := run_exactly_cons '('
  have hy := (Blank.skip_suffix y).length_le
  cases hv : Rule.nthValue.run (Blank.skip y) with
  | none =>
      have hn : (Blank.skip y).length < ('(' :: y).length := Nat.lt_succ_of_le hy
      refine ⟨_, .nthValue, hn, .call (.seq_second (.callFree rfl) hopen ?_) hn⟩
      exact .seq_second (.callFree rfl) (Blank.run_maybe_ws y) (.seq_first (.vain rfl rfl hv) hv)
  | some v =>
      obtain ⟨z, vs⟩ := v
      have hclose : Rule.parenClose.run (Blank.skip z) = none := by
        cases hc : Rule.parenClose.run (Blank.skip z) with
        | none => rfl
        | some u =>
            obtain ⟨u, us⟩ := u
            have hrun := (Rule.run_node (r := .nthArguments) rfl).2 ⟨_, run_seq_eq_some.2 ⟨y, [], _, hopen,
              run_seq_eq_some.2 ⟨_, [], _, Blank.run_maybe_ws y, run_seq_eq_some.2 ⟨z, vs, _, hv,
                run_seq_eq_some.2 ⟨_, [], _, Blank.run_maybe_ws z, hc, rfl⟩, rfl⟩, rfl⟩, rfl⟩, rfl⟩
            cases h.symm.trans hrun
      have hz := (Blank.skip_suffix z).length_le
      have hlt : z.length < (Blank.skip y).length := Rule.lawful_run.shorter rfl hv
      have hn : (Blank.skip z).length < ('(' :: y).length := by
        rw [List.length_cons]
        omega
      refine ⟨_, .parenClose, hn, .call (.seq_second (.callFree rfl) hopen ?_) hn⟩
      refine .seq_second (.callFree rfl) (Blank.run_maybe_ws y) (.seq_second (.call (.callFree rfl) (by omega)) hv ?_)
      exact .seq_second (.callFree rfl) (Blank.run_maybe_ws z) (.vain rfl rfl hclose)

/-- A name that takes a number and has none fails, for what is behind it. -/
theorem leaves_pseudoClass (hw : AnPlusB.isPseudoName (String.ofList w) = true)
    (h : Rule.nthArguments.run ('(' :: y) = none) (hl : (call .nthArguments).Leaves ('(' :: y) n rule)
    (hn : n < ('(' :: y).length) : Rule.pseudoClass.run (':' :: (w ++ '(' :: y)) = none ∧
      (call .pseudoClass).Leaves (':' :: (w ++ '(' :: y)) n rule := by
  have hname : Rule.nthName.run (w ++ '(' :: y) = some ('(' :: y, [⟨.nthName, w ++ '(' :: y, '(' :: y, []⟩]) :=
    run_nthName_eq_some.2 ⟨w, y, hw, rfl, rfl, rfl⟩
  have hcolon : (exactly ':').run Rule.run (':' :: (w ++ '(' :: y)) = some (w ++ '(' :: y, []) := run_exactly_cons ':'
  have hplain : (seq (call .nthName) (call .nthArguments)).run Rule.run (w ++ '(' :: y) = none :=
    run_seq_eq_none.2 (Or.inr ⟨_, _, hname, h⟩)
  have habsent : (absent (call .nthName)).run Rule.run (w ++ '(' :: y) = none :=
    run_absent_eq_none.2 ⟨_, hname⟩
  have hlt : n < (w ++ '(' :: y).length := by
    rw [List.length_append]
    omega
  have hquiet : (call .nthName).Quiet (w ++ '(' :: y) n := .call (.callFree rfl) hlt
  constructor
  · refine Rule.run_eq_none.2 (run_seq_eq_none.2 (Or.inr ⟨_, _, hcolon, run_choice_eq_none.2 ⟨hplain, ?_⟩⟩))
    exact run_seq_eq_none.2 (Or.inl habsent)
  · refine .call (.seq_second (.callFree rfl) hcolon ?_) (Nat.lt_succ_of_lt hlt)
    exact .choice_first (.seq_second hquiet hname hl) hplain (.seq_of_none hquiet.absent habsent)

/-- Behind a name with escapes the grammar takes any argument. -/
theorem run_pseudoClass_escaped (hw : Rule.ident.run w = some ([], ns)) (hesc : '\\' ∈ w)
    (ha : Rule.arguments.run ('(' :: y) = some (t, [m])) :
    Rule.pseudoClass.run (':' :: (w ++ '(' :: y)) = some (t, [⟨.pseudoClass, ':' :: (w ++ '(' :: y), t,
      [⟨.ident, w ++ '(' :: y, '(' :: y, []⟩, m]⟩]) := by
  have hident := run_ident_paren hw y
  have hnone : Rule.nthName.run (w ++ '(' :: y) = none := by
    cases hn : Rule.nthName.run (w ++ '(' :: y) with
    | none => rfl
    | some z =>
        obtain ⟨v, k, hv, hs, hk, -⟩ := run_nthName_eq_some.1 hn
        rw [hk] at hs
        have hplain := run_ident_of_isPseudoName hv k
        rw [← hs, hident] at hplain
        cases hplain
        obtain rfl := List.append_cancel_right hs
        obtain ⟨c, u, rfl, hc, hu⟩ := plain_of_isPseudoName hv
        rcases List.mem_cons.1 hesc with rfl | hesc
        · cases hc
        · cases hu _ hesc
  have htail := run_pseudoTail_named hident hnone ha
  exact (Rule.run_node rfl).2 ⟨_, run_seq_eq_some.2 ⟨_, [], _, run_exactly_cons ':', htail, rfl⟩, rfl⟩

theorem run_pseudoClass_plain (hw : AnPlusB.isPseudoName (String.ofList w) = true)
    (ha : Rule.nthArguments.run ('(' :: y) = some (t, [m])) :
    Rule.pseudoClass.run (':' :: (w ++ '(' :: y)) = some (t, [⟨.pseudoClass, ':' :: (w ++ '(' :: y), t,
      [⟨.nthName, w ++ '(' :: y, '(' :: y, []⟩, m]⟩]) := by
  have hname : Rule.nthName.run (w ++ '(' :: y) = some ('(' :: y, [⟨.nthName, w ++ '(' :: y, '(' :: y, []⟩]) :=
    run_nthName_eq_some.2 ⟨w, y, hw, rfl, rfl, rfl⟩
  refine (Rule.run_node rfl).2 ⟨_, run_seq_eq_some.2 ⟨_, [], _, run_exactly_cons ':', ?_, rfl⟩, rfl⟩
  exact run_choice_eq_some.2 (Or.inl (run_seq_eq_some.2 ⟨_, _, [m], hname, ha, rfl⟩))

end SelectorSyntax.Selector.Spelling
