import SelectorSyntax.Proofs.Spelling.Enclosed

namespace SelectorSyntax.Selector.Spelling

open Grammar Expression Text OfNodes CharClass

variable {s t : List Char} {ns ms : List Node} {ps qs : List Parameter}

/-! The items of an argument, and where there are none. -/

theorem items_cons_of_ok {n : Node} {q : Parameter} (hn : item n = .ok q) (hns : items ns = .ok qs) :
    items (n :: ns) = .ok (q :: qs) := by
  rw [items]
  exact bind_eq_ok.2 ⟨q, hn, bind_eq_ok.2 ⟨qs, hns, rfl⟩⟩

theorem run_string_none {c : Char} (hc : isQuote c = false) (s : List Char) :
    Rule.string.run (c :: s) = none := by
  cases h : Rule.string.run (c :: s) with
  | none => rfl
  | some x =>
      obtain ⟨q, r, hq, hs, -⟩ := run_string_eq_some.1 h
      cases hs
      rw [hc] at hq
      cases hq

theorem run_group_none {o c : Char} {r : Rule} (hc : c ≠ o) (s : List Char) :
    (group o r).run Rule.run (c :: s) = none :=
  run_seq_eq_none.2 (Or.inl (run_exactly_eq_none.2 (by simpa using hc)))

theorem run_argGroup_none {c : Char}
    (hc : c ∉ ['(', '[']) (s : List Char) : Rule.argGroup.run (c :: s) = none := by
  simp only [List.mem_cons, List.not_mem_nil, or_false, not_or] at hc
  exact Rule.run_eq_none.2 (run_choice_eq_none.2 ⟨run_group_none hc.1 s, run_group_none hc.2 s⟩)

theorem run_argDelim_eq_some : Rule.argDelim.run s = some (t, ns) ↔
    ∃ c, isDelimiter c = true ∧ s = c :: t ∧ ns = [⟨.argDelim, s, t, []⟩] := by
  constructor
  · intro h
    obtain ⟨c, hs, hc⟩ := delimiter_of_run h
    obtain ⟨-, -, hns, -⟩ := run_token rfl h
    exact ⟨c, hc, hs, hns⟩
  · rintro ⟨c, hc, rfl, rfl⟩
    rw [isDelimiter, Bool.not_eq_true', Bool.or_eq_false_iff] at hc
    refine (Rule.run_node rfl).2 ⟨[], run_butNot_eq_some.2 ⟨?_, ⟨c, rfl⟩, rfl⟩, rfl⟩
    refine run_choice_eq_none.2 ⟨run_char_eq_none.2 fun d r hd => ?_, run_char_eq_none.2 fun d r hd => ?_⟩
    · cases hd
      exact hc.1
    · cases hd
      exact hc.2

theorem not_bracket {c : Char} (hc : isDelimiter c = true) : c ∉ ['(', '['] := by
  simp only [List.mem_cons, List.not_mem_nil, or_false]
  rintro (rfl | rfl) <;> cases hc

/-- Nothing of an argument is left here: blanks and then a closing bracket or the end. -/
def Finished (s : List Char) : Prop := Closing (Blank.skip s)

theorem Finished.run_argItem (h : Finished s) : argItem.run Rule.run (Blank.skip s) = none := by
  cases hs : Blank.skip s with
  | nil => exact run_nil_eq_none rfl
  | cons c r =>
      rcases h c r hs with rfl | rfl
      · exact run_eq_none_of_begins r rfl rfl
      · exact run_eq_none_of_begins r rfl rfl

theorem run_argSpace_none : Rule.argSpace.run s = none ↔ Blank.Settled s := by
  rw [Rule.run_eq_none]
  exact Blank.run_ws_eq_none

theorem run_argSpace (h : ¬ Blank.Settled s) :
    Rule.argSpace.run s = some (Blank.skip s, [⟨.argSpace, s, Blank.skip s, []⟩]) :=
  (Rule.run_node rfl).2 ⟨[], Blank.run_ws_eq_some.2 ⟨h, rfl, rfl⟩, rfl⟩

/-- What is matched behind the first item as often as it can be. -/
abbrev round : Expression := seq (maybe (call .argSpace)) argItem

theorem Finished.run_round (h : Finished s) : round.run Rule.run s = none := by
  refine run_seq_eq_none.2 (Or.inr ?_)
  by_cases hs : Blank.Settled s
  · have hi := h.run_argItem
    rw [hs.skip_eq] at hi
    exact ⟨s, [], run_maybe_eq_some.2 (Or.inr ⟨run_argSpace_none.2 hs, rfl, rfl⟩), hi⟩
  · exact ⟨_, _, run_maybe_eq_some.2 (Or.inl (run_argSpace hs)), h.run_argItem⟩

theorem groupItems_argument (hps : items ms = .ok ps) (hqs : groupItems ns = .ok qs) :
    groupItems (⟨.argument, s, t, ms⟩ :: ns) = .ok (ps ++ qs) := by
  rw [groupItems]
  exact bind_eq_ok.2 ⟨ps, hps, bind_eq_ok.2 ⟨qs, hqs, rfl⟩⟩

end SelectorSyntax.Selector.Spelling
