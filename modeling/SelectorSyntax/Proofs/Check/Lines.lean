import SelectorSyntax.Check.Run

namespace SelectorSyntax.Check

variable {l s before : List Char} {ls : List (List Char)}

/-- Lines and a text that they are the lines of. A line ends with a line feed, or with a carriage return and a line
feed, and only the last one may have no end. -/
inductive Lined : List (List Char) → List Char → Prop
  | nil : Lined [] []
  | last {l : List Char} : l ≠ [] → Lined [l] l
  | ended {l e s : List Char} {ls : List (List Char)} : e ∈ [['\n'], ['\r', '\n']] → Lined ls s →
      Lined (l :: ls) (l ++ (e ++ s))

/-- Lines that no line end is a part of. -/
def Unbroken (l : List Char) : Prop := '\n' ∉ l ∧ '\r' ∉ l

instance : Decidable (Unbroken l) := inferInstanceAs (Decidable (_ ∧ _))

namespace splitLines

theorem go_append (before : List Char) (hl : '\n' ∉ l) (s : List Char) :
    go before (l ++ s) = go (l.reverse ++ before) s := by
  induction l generalizing before with
  | nil => rfl
  | cons c l ih =>
      have hc : c ≠ '\n' := fun h => hl (h ▸ List.mem_cons_self)
      rw [List.cons_append, go]
      · rw [ih _ fun h => hl (List.mem_cons_of_mem c h), List.reverse_cons, List.append_assoc, List.singleton_append]
      · rintro rfl
        exact absurd rfl hc
      · rintro d r rfl
        exact absurd rfl hc

theorem go_newline (before s : List Char) : go before ('\n' :: s) = dropReturn before :: splitLines s := by
  cases s with
  | nil => rw [go, splitLines]
  | cons d s => rw [go, splitLines]

theorem go_nil_eq (hs : s ≠ []) : go [] s = splitLines s := by
  cases s with
  | nil => exact absurd rfl hs
  | cons c s => rw [splitLines]

theorem dropReturn_of_not_mem (h : '\r' ∉ before) : dropReturn before = before.reverse := by
  rw [dropReturn]
  rintro b rfl
  exact h List.mem_cons_self

theorem dropReturn_append (before : List Char) : ∃ e ∈ [['\n'], ['\r', '\n']],
    before.reverse ++ ['\n'] = dropReturn before ++ e := by
  unfold dropReturn
  split
  next b => exact ⟨['\r', '\n'], by decide, by simp⟩
  next => exact ⟨['\n'], by decide, rfl⟩

theorem lined_go (before s : List Char) (h : before ≠ [] ∨ s ≠ []) : Lined (go before s) (before.reverse ++ s) := by
  induction s generalizing before with
  | nil =>
      rw [go, List.append_nil]
      exact .last (by simpa using h)
  | cons c s ih =>
      by_cases hc : c = '\n'
      · obtain ⟨e, he, hbefore⟩ := dropReturn_append before
        have htext : before.reverse ++ '\n' :: s = dropReturn before ++ (e ++ s) := by
          rw [← List.append_assoc, ← hbefore, List.append_assoc, List.singleton_append]
        rw [hc, go_newline, htext]
        refine .ended he ?_
        cases s with
        | nil => exact .nil
        | cons d s => exact ih [] (Or.inr (List.cons_ne_nil d s))
      · rw [go]
        · have hrest := ih (c :: before) (Or.inl (List.cons_ne_nil c before))
          rwa [List.reverse_cons, List.append_assoc, List.singleton_append] at hrest
        · rintro rfl
          exact absurd rfl hc
        · rintro d r rfl
          exact absurd rfl hc

end splitLines

open splitLines

/-- Whatever the text, its lines with their ends make up the whole of it. -/
theorem lined_splitLines (s : List Char) : Lined (splitLines s) s := by
  cases s with
  | nil => exact .nil
  | cons c s => exact lined_go [] (c :: s) (Or.inr (List.cons_ne_nil c s))

theorem splitLines_of_lined (h : Lined ls s) (hls : ∀ l ∈ ls, Unbroken l) : splitLines s = ls := by
  induction h with
  | nil => rw [splitLines]
  | @last l hne =>
      obtain ⟨hl, -⟩ := hls l List.mem_cons_self
      have hgo := go_append [] hl []
      rw [go, List.append_nil, List.append_nil, List.reverse_reverse] at hgo
      rw [← go_nil_eq hne, hgo]
  | @ended l e s ls he _ ih =>
      obtain ⟨⟨hl, hr⟩, hls⟩ := List.forall_mem_cons.1 hls
      have hne : l ++ (e ++ s) ≠ [] := by
        rintro h
        simp only [List.append_eq_nil_iff] at h
        simp [h] at he
      rw [← go_nil_eq hne, go_append [] hl, List.append_nil]
      simp only [List.mem_cons, List.not_mem_nil, or_false] at he
      rcases he with rfl | rfl
      · rw [List.singleton_append, go_newline, dropReturn_of_not_mem (by simpa using hr), List.reverse_reverse, ih hls]
      · rw [List.cons_append, go, List.singleton_append, go_newline, dropReturn, List.reverse_reverse, ih hls]
        · intro hr
          cases hr
        · intro d r hr
          cases hr

/-- Lines without line ends in them are the lines of the texts that they make up, and of no other. -/
theorem splitLines_eq_iff (hls : ∀ l ∈ ls, Unbroken l) : splitLines s = ls ↔ Lined ls s := by
  constructor
  · rintro rfl
    exact lined_splitLines s
  · exact fun h => splitLines_of_lined h hls

end SelectorSyntax.Check
