import SelectorSyntax.Bracket

namespace SelectorSyntax.Bracket

open Text CharClass

variable {d : Nat} {st : State} {c : Char} {s t : List Char}

theorem opener_cases (h : isOpener c = true) : c = '(' ∨ c = '[' := by simpa [isOpener] using h

theorem closer_cases {o : Char} (h : openerOf? c = some o) : o = '(' ∧ c = ')' ∨ o = '[' ∧ c = ']' := by
  unfold openerOf? at h
  split at h
  next => exact Or.inl ⟨(Option.some.inj h).symm, rfl⟩
  next => exact Or.inr ⟨(Option.some.inj h).symm, rfl⟩
  next => cases h

theorem openerOf?_eq_none (hp : c ≠ ')') (hb : c ≠ ']') : openerOf? c = none := by
  cases h : openerOf? c with
  | none => rfl
  | some o =>
      rcases closer_cases h with ⟨-, rfl⟩ | ⟨-, rfl⟩
      · exact absurd rfl hp
      · exact absurd rfl hb

/-! One equation of the walk for each thing it can meet. -/

theorem comment?_eq_none (hc : c ≠ '/') : Blank.comment? (c :: s) = none := by
  unfold Blank.comment?
  split
  next heq =>
    cases heq
    exact absurd rfl hc
  next => rfl

theorem walk_escape : walk d st ('\\' :: c :: s) = walk d st s := by
  rw [walk, if_pos rfl]
  rfl

theorem walk_quoted {q : Char} {v : List Char} (h : Quoted.read (q :: s) = some (v, t)) :
    walk d st (q :: s) = walk d st t := by
  rw [Quoted.read] at h
  split at h
  next hq =>
    have hb : q ≠ '\\' := by
      rintro rfl
      cases hq
    rw [walk, if_neg hb, if_pos hq, h]
  next => cases h

theorem walk_comment (h : Blank.comment? s = some t) : walk d st s = walk d st t := by
  cases s with
  | nil => cases h
  | cons c s =>
      by_cases hc : c = '/'
      · subst hc
        rw [walk, if_neg (by decide), if_neg (by decide), h]
      · rw [comment?_eq_none hc] at h
        cases h

theorem walk_step (hb : c ≠ '\\') (hq : isQuote c = false) (hc : Blank.comment? (c :: s) = none) :
    walk d st (c :: s) =
      match st.step? d ⟨c, c :: s⟩ with
      | none => .error (c :: s)
      | some st' => walk d st' s := by
  rw [walk, if_neg hb, if_neg (by simp [hq])]
  split
  next heq =>
    rw [hc] at heq
    cases heq
  next => rfl

/-- Characters that mean nothing to the walk. Where a closed comment may begin is not told by one
character, so a slash is not among them. -/
def isInert (c : Char) : Bool :=
  !(isQuote c || isOpener c || (openerOf? c).isSome || c = '\\' || c = '/')

theorem walk_other (hb : c ≠ '\\') (hq : isQuote c = false) (hc : Blank.comment? (c :: s) = none)
    (ho : isOpener c = false) (hcl : openerOf? c = none) : walk d st (c :: s) = walk d st s := by
  rw [walk_step hb hq hc, State.step?, if_neg (by simp [ho])]
  simp only [hcl]

theorem walk_inert (h : isInert c = true) : walk d st (c :: s) = walk d st s := by
  simp only [isInert, Bool.not_eq_true', Bool.or_eq_false_iff, decide_eq_false_iff_not, Option.isSome_eq_false_iff,
    Option.isNone_iff_eq_none] at h
  obtain ⟨⟨⟨⟨hq, ho⟩, hcl⟩, hb⟩, hs⟩ := h
  exact walk_other hb hq (comment?_eq_none hs) ho hcl

theorem walk_open (h : isOpener c = true) :
    walk d st (c :: s) =
      if d ≤ st.opened.length then .error (c :: s)
      else walk d { st with opened := ⟨c, c :: s⟩ :: st.opened } s := by
  have hstep : walk d st (c :: s) = match st.step? d ⟨c, c :: s⟩ with
      | none => .error (c :: s)
      | some st' => walk d st' s := by
    rcases opener_cases h with rfl | rfl <;> exact walk_step (by decide) (by decide) rfl
  rw [hstep, State.step?, if_pos h]
  by_cases hd : d ≤ st.opened.length
  · rw [if_pos hd, if_pos hd]
  · rw [if_neg hd, if_neg hd]

/-- A closer takes away the opener of its kind that was opened last. -/
theorem walk_close {o : Char} {m : Mark} {os strays : List Mark} (h : openerOf? c = some o)
    (hm : m.bracket = o) :
    walk d ⟨m :: os, strays⟩ (c :: s) = walk d ⟨os, strays⟩ s := by
  have hc : c = ')' ∨ c = ']' := (closer_cases h).imp And.right And.right
  have hstep : walk d ⟨m :: os, strays⟩ (c :: s) = match State.step? d ⟨m :: os, strays⟩ ⟨c, c :: s⟩ with
      | none => .error (c :: s)
      | some st' => walk d st' s := by
    rcases hc with rfl | rfl <;> exact walk_step (by decide) (by decide) rfl
  have ho : isOpener c = false := by rcases hc with rfl | rfl <;> rfl
  rw [hstep, State.step?, if_neg (by simp [ho])]
  simp only [h, State.close, hm, if_true]

/-- The walk goes from one place to another without an effect. -/
def Passes (s t : List Char) : Prop := ∀ d st, walk d st s = walk d st t

/-- The walk goes from one place to a later one over `k` pairs of brackets inside one another and
nothing else that counts: it gets there as it was, or fails for want of depth. -/
def Crosses (s t : List Char) (k : Nat) : Prop :=
  ∀ d st, st.opened.length ≤ d →
    if st.opened.length + k ≤ d then walk d st s = walk d st t else ∃ p, walk d st s = .error p

theorem Passes.refl (s : List Char) : Passes s s := fun _ _ => rfl

theorem Passes.trans {s t u : List Char} (h : Passes s t) (h' : Passes t u) : Passes s u :=
  fun d st => (h d st).trans (h' d st)

theorem Passes.crosses (h : Passes s t) : Crosses s t 0 := by
  intro d st hd
  rw [if_pos (by omega)]
  exact h d st

theorem Crosses.trans {s t u : List Char} {k l : Nat} (h : Crosses s t k) (h' : Crosses t u l) :
    Crosses s u (max k l) := by
  intro d st hd
  have hs := h d st hd
  have ht := h' d st hd
  by_cases hk : st.opened.length + k ≤ d
  · rw [if_pos hk] at hs
    rw [hs]
    by_cases hl : st.opened.length + l ≤ d
    · rw [if_pos hl] at ht
      rw [if_pos (by omega), ht]
    · rw [if_neg hl] at ht
      rw [if_neg (by omega)]
      exact ht
  · rw [if_neg hk] at hs
    rw [if_neg (by omega)]
    exact hs

/-- What is crossed between an opener and its closer makes one more pair. -/
theorem Crosses.enclose {o c : Char} {s t : List Char} {k : Nat} (h : Crosses s (c :: t) k)
    (ho : isOpener o = true) (hc : openerOf? c = some o) : Crosses (o :: s) t (k + 1) := by
  intro d st hd
  rw [walk_open ho]
  by_cases hlt : d ≤ st.opened.length
  · rw [if_neg (by omega), if_pos hlt]
    exact ⟨_, rfl⟩
  · rw [if_neg hlt]
    have hs := h d { st with opened := ⟨o, o :: s⟩ :: st.opened } (by simp only [List.length_cons]; omega)
    simp only [List.length_cons] at hs
    by_cases hk : st.opened.length + (k + 1) ≤ d
    · rw [if_pos (by omega)] at hs
      rw [if_pos hk, hs, walk_close hc rfl]
    · rw [if_neg (by omega)] at hs
      rw [if_neg hk]
      exact hs

/-- A walk that ends well has been deep enough for all it crossed. -/
theorem Crosses.of_ok {s t : List Char} {k : Nat} (h : Crosses s t k) (hd : st.opened.length ≤ d)
    {x : State}
    (hw : walk d st s = .ok x) : st.opened.length + k ≤ d ∧ walk d st t = .ok x := by
  have hs := h d st hd
  by_cases hk : st.opened.length + k ≤ d
  · rw [if_pos hk] at hs
    exact ⟨hk, by rw [← hs, hw]⟩
  · rw [if_neg hk, hw] at hs
    obtain ⟨p, hp⟩ := hs
    cases hp

end SelectorSyntax.Bracket
