import SelectorSyntax.Proofs.Bracket.Balanced
import SelectorSyntax.Proofs.Tokens.Blank

namespace SelectorSyntax.Bracket

open Text CharClass

/-- What follows the piece at the front of a text that the scan takes in one go: a backslash with the character
behind it, quoted text, a closed comment, or any other character. Nothing follows a quote that never closes. -/
def piece? : List Char → Option (List Char)
  | [] => none
  | c :: r =>
    if c = '\\' then some r.tail
    else if isQuote c then (Quoted.read (c :: r)).map Prod.snd
    else some ((Blank.comment? (c :: r)).getD r)

def isBracket (c : Char) : Bool := isOpener c || (openerOf? c).isSome

variable {d : Nat} {st : State} {c : Char} {s t u : List Char} {m : Mark} {ms : List Mark}

theorem bracket_cases (h : isBracket c = true) : isOpener c = true ∨ ∃ o, openerOf? c = some o := by
  rw [isBracket, Bool.or_eq_true] at h
  exact h.imp_right Option.isSome_iff_exists.1

theorem read_cons (h : isQuote c = true) : Quoted.read (c :: s) = Quoted.readBody c s := if_pos h

/-- The kinds of pieces. -/
theorem piece?_cases (h : piece? (c :: s) = some t) :
    c = '\\' ∧ t = s.tail ∨ (∃ v, Quoted.read (c :: s) = some (v, t)) ∨ Blank.comment? (c :: s) = some t ∨
      c ≠ '\\' ∧ isQuote c = false ∧ Blank.comment? (c :: s) = none ∧ t = s := by
  rw [piece?] at h
  split at h
  next hb =>
    cases h
    exact Or.inl ⟨hb, rfl⟩
  next hb =>
  split at h
  next hq =>
    obtain ⟨⟨v, u⟩, hu, rfl⟩ := Option.map_eq_some_iff.1 h
    exact Or.inr (Or.inl ⟨v, hu⟩)
  next hq =>
    cases hc : Blank.comment? (c :: s) with
    | some u =>
        rw [hc] at h
        exact Or.inr (Or.inr (Or.inl h))
    | none =>
        rw [hc] at h
        cases h
        exact Or.inr (Or.inr (Or.inr ⟨hb, by simpa using hq, rfl, rfl⟩))

theorem piece?_suffix (h : piece? (c :: s) = some t) : t <:+ s := by
  rcases piece?_cases h with ⟨-, rfl⟩ | ⟨v, hv⟩ | hc | ⟨-, -, -, rfl⟩
  · exact List.tail_suffix s
  · rw [Quoted.read] at hv
    split at hv
    next => exact Quoted.readBody_suffix hv
    next => cases hv
  · exact (List.suffix_cons_iff.1 (Blank.comment?_suffix hc)).resolve_left
      fun he => absurd (Blank.comment?_length hc) (by rw [he]; exact Nat.lt_irrefl _)
  · exact List.suffix_rfl

theorem piece?_length (h : piece? (c :: s) = some t) : t.length < (c :: s).length :=
  Nat.lt_succ_of_le (piece?_suffix h).length_le

/-- The brackets of a text that are outside quoted text and closed comments and not behind a backslash, up to the
first quote that never closes. -/
def exposed (s : List Char) : List Mark :=
  match s with
  | [] => []
  | c :: r =>
    match _h : piece? (c :: r) with
    | none => []
    | some t => if isBracket c then ⟨c, c :: r⟩ :: exposed t else exposed t
termination_by s.length
decreasing_by all_goals exact piece?_length _h

theorem exposed_nil : exposed [] = [] := by rw [exposed]

theorem exposed_of_none (h : piece? s = none) : exposed s = [] := by
  cases s with
  | nil => exact exposed_nil
  | cons c s =>
      rw [exposed]
      split
      next => rfl
      next t ht => rw [h] at ht; cases ht

theorem exposed_piece (h : piece? (c :: s) = some t) :
    exposed (c :: s) = if isBracket c then ⟨c, c :: s⟩ :: exposed t else exposed t := by
  rw [exposed]
  split
  next hn => rw [h] at hn; cases hn
  next u hu => rw [h] at hu; cases hu; rfl

/-- A mark of an exposed bracket is the place where it stands. -/
theorem mem_exposed (h : m ∈ exposed s) : isBracket m.bracket = true ∧ (∃ r, m.place = m.bracket :: r) ∧ m.place <:+ s := by
  fun_induction exposed s with
  | case1 | case2 => cases h
  | case3 c r t ht hc ih =>
      rcases List.mem_cons.1 h with rfl | h
      · exact ⟨hc, ⟨r, rfl⟩, List.suffix_rfl⟩
      · obtain ⟨hb, hp, hs⟩ := ih h
        exact ⟨hb, hp, hs.trans ((piece?_suffix ht).trans (List.suffix_cons c r))⟩
  | case4 c r t ht hc ih =>
      obtain ⟨hb, hp, hs⟩ := ih h
      exact ⟨hb, hp, hs.trans ((piece?_suffix ht).trans (List.suffix_cons c r))⟩

/-- The exposed brackets are listed in the order of the text. -/
theorem exposed_ordered (s : List Char) : (exposed s).Pairwise fun m m' => m'.place <:+ m.place := by
  fun_induction exposed s with
  | case1 | case2 => exact List.Pairwise.nil
  | case3 c r t ht hc ih =>
      refine List.Pairwise.cons (fun m hm => ?_) ih
      exact (mem_exposed hm).2.2.trans ((piece?_suffix ht).trans (List.suffix_cons c r))
  | case4 c r t ht hc ih => exact ih

/-- Steps with one bracket after the other. The error is the place of the bracket that was one too many. -/
def settle (d : Nat) (st : State) : List Mark → Except (List Char) State
  | [] => .ok st
  | m :: ms => match st.step? d m with
    | none => .error m.place
    | some st' => settle d st' ms

theorem step?_of_not_bracket (h : ¬ isBracket m.bracket = true) : st.step? d m = some st := by
  simp only [isBracket, Bool.or_eq_true, not_or, Bool.not_eq_true, Option.isSome_eq_false_iff, Option.isNone_iff_eq_none] at h
  rw [State.step?, if_neg (by simp [h.1]), h.2]

/-- The scan takes note of the exposed brackets only. -/
theorem walk_eq_settle (d : Nat) (st : State) (s : List Char) : walk d st s = settle d st (exposed s) := by
  fun_induction walk d st s with
  | case1 st => rw [exposed_nil, settle]
  | case2 st r ih =>
      have hp : piece? ('\\' :: r) = some r.tail := by rw [piece?, if_pos rfl]
      rw [ih, exposed_piece hp, if_neg (by decide)]
  | case3 st c r hb hq h =>
      have hp : piece? (c :: r) = none := by rw [piece?, if_neg hb, if_pos hq, read_cons hq, h]; rfl
      rw [exposed_of_none hp, settle]
  | case4 st c r hb hq v t h ih =>
      have hp : piece? (c :: r) = some t := by rw [piece?, if_neg hb, if_pos hq, read_cons hq, h]; rfl
      have hc : ¬ isBracket c = true := by
        rcases Grammar.isQuote_cases hq with rfl | rfl <;> decide
      rw [ih, exposed_piece hp, if_neg hc]
  | case5 st c r hb hq t h ih =>
      have hp : piece? (c :: r) = some t := by rw [piece?, if_neg hb, if_neg hq, h]; rfl
      have hc : ¬ isBracket c = true := by
        intro hc
        rw [comment?_eq_none (by rintro rfl; cases hc)] at h
        cases h
      rw [ih, exposed_piece hp, if_neg hc]
  | case6 st c r hb hq h hs =>
      have hp : piece? (c :: r) = some r := by rw [piece?, if_neg hb, if_neg hq, h]; rfl
      have hc : isBracket c = true := Decidable.byContradiction fun hc => by
        rw [step?_of_not_bracket hc] at hs
        cases hs
      rw [exposed_piece hp, if_pos hc, settle, hs]
  | case7 st c r hb hq h st' hs ih =>
      have hp : piece? (c :: r) = some r := by rw [piece?, if_neg hb, if_neg hq, h]; rfl
      rw [exposed_piece hp, ih]
      by_cases hc : isBracket c = true
      · rw [if_pos hc, settle, hs]
      · rw [if_neg hc]
        rw [step?_of_not_bracket hc] at hs
        cases hs
        rfl

end SelectorSyntax.Bracket
