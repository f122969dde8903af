import SelectorSyntax.Proofs.Cursor.Readers
import SelectorSyntax.Proofs.Tokens.Escape
import SelectorSyntax.Proofs.Tokens.Blank

namespace SelectorSyntax.Text.Cursor

open CharClass Place

variable {limit : Nat} {input : List Char} {x : Nat} {c d : Char} {s t : List Char}

theorem isValidEscape_eq (hx : x < limit) : isValidEscape limit input x = pure (Reader.isValidEscape input x) := by
  rw [isValidEscape, Reader.isValidEscape]
  cases h : dropBytes? input x with
  | none =>
      rw [restAt_of_no_place h, peek_of_no_place h]
      rfl
  | some s =>
      rw [restAt_of_place h, peek_of_place h]
      cases s with
      | nil => rfl
      | cons c s =>
          by_cases hc : c = '\\'
          · subst hc
            have hs : dropBytes? input (x + 1) = some s := place_cons h
            rw [List.head?_cons, if_pos rfl, add_of_le hx, pure_bind, peek_of_place hs]
            cases s <;> rfl
          · rw [List.head?_cons, if_neg (by simpa using hc)]
            cases s <;> simp [Escape.isValid, hc]

/-! Blanks. -/

theorem findClose_of_close (h : Blank.closeComment? s = some t) :
    ∃ w, s = w ++ '*' :: '/' :: t ∧ findClose s = some (byteSize w) := by
  induction s using Blank.closeComment?.induct with
  | case1 s =>
      rw [Blank.closeComment?] at h
      cases h
      exact ⟨[], rfl, rfl⟩
  | case2 c s hc ih =>
      rw [Blank.closeComment?.eq_2 c s hc] at h
      obtain ⟨w, rfl, hw⟩ := ih h
      refine ⟨c :: w, rfl, ?_⟩
      rw [findClose.eq_2 c _ hc, hw]
      rfl
  | case3 => cases h

theorem findClose_of_open (h : Blank.closeComment? s = none) : findClose s = none := by
  induction s using Blank.closeComment?.induct with
  | case1 s =>
      rw [Blank.closeComment?] at h
      cases h
  | case2 c s hc ih =>
      rw [Blank.closeComment?.eq_2 c s hc] at h
      rw [findClose.eq_2 c s hc, ih h]
      rfl
  | case3 => rfl

theorem commentAt?_none (h : dropBytes? input x = some s) (hs : Blank.comment? s = none) (c : Char) :
    commentAt? limit input c x = pure none := by
  rw [commentAt?]
  split
  · rw [comment?, h]
    split
    next body heq =>
      cases heq
      rw [findClose_of_open hs]
    next => rfl
  · rfl

theorem commentAt?_some (hinput : byteSize input ≤ limit) (h : dropBytes? input x = some (c :: s))
    (hs : Blank.comment? (c :: s) = some t) : commentAt? limit input c x = pure (some (offsetOf input t)) := by
  obtain ⟨body, hbody⟩ : ∃ body, c :: s = '/' :: '*' :: body := by
    unfold Blank.comment? at hs
    split at hs
    next body heq => exact ⟨body, heq⟩
    next => cases hs
  cases hbody
  obtain ⟨w, rfl, hw⟩ := findClose_of_close hs
  have hinside : dropBytes? input (x + 2) = some (w ++ '*' :: '/' :: t) := place_append (w := ['/', '*']) h
  have hclose := place_append hinside
  have hnext : dropBytes? input (x + 2 + byteSize w + 2) = some t := place_append (w := ['*', '/']) hclose
  simp only [commentAt?, if_true, comment?, h, hw, add_of_place hinput hinside, add_of_place hinput hclose,
    add_of_place hinput hnext, pure_bind, offsetOf_of_place hnext]

theorem blankRound_whitespace (hinput : byteSize input ≤ limit) (h : dropBytes? input x = some (c :: s))
    (hc : isWhitespace c = true) : blankRound limit input x = pure (.again (x + c.utf8Size)) := by
  simp only [blankRound, peek_cons h, hc, if_true, add_of_place hinput (place_cons h), pure_bind]

theorem blankRound_comment (hinput : byteSize input ≤ limit) (h : dropBytes? input x = some (c :: s))
    (hc : isWhitespace c = false) (hs : Blank.comment? (c :: s) = some t) :
    blankRound limit input x = pure (.again (offsetOf input t)) := by
  simp only [blankRound, peek_cons h, hc, Bool.false_eq_true, if_false, commentAt?_some hinput h hs, pure_bind]

theorem blankRound_settled (h : dropBytes? input x = some s) (hs : Blank.Settled s) :
    blankRound limit input x = pure (.done x) := by
  cases s with
  | nil => simp only [blankRound, peek_end h]
  | cons c s =>
      simp only [blankRound, peek_cons h, hs.whitespace c s rfl, Bool.false_eq_true, if_false,
        commentAt?_none h hs.comment, pure_bind]

theorem blankRound_no_place (h : dropBytes? input x = none) : blankRound limit input x = pure (.done x) := by
  simp only [blankRound, peek_of_no_place h]

theorem settled_nil : Blank.Settled [] := Blank.settled_iff.2 Blank.skip_nil

theorem settled_of_not {c : Char} {r : List Char} (hc : ¬ isWhitespace c = true) (hr : Blank.comment? (c :: r) = none) :
    Blank.Settled (c :: r) :=
  Blank.settled_iff.2 (Blank.skip_other (by simpa using hc) hr)

theorem advances_blankRound (hinput : byteSize input ≤ limit) : Advances input id (blankRound limit input) := by
  intro x
  cases h : dropBytes? input x with
  | none => exact .done (blankRound_no_place h)
  | some s =>
      induction s using Blank.skip.induct with
      | case1 => exact .done (blankRound_settled h settled_nil)
      | case2 c r hc => exact .again (blankRound_whitespace hinput h hc) (ahead_of_cons h)
      | case3 c r hc t ht =>
          have hahead := ahead_of_suffix h (Blank.comment?_suffix ht) (Blank.comment?_length ht)
          exact .again (blankRound_comment hinput h (by simpa using hc) ht) hahead
      | case4 c r hc hr => exact .done (blankRound_settled h (settled_of_not hc hr))

theorem loop_blankRound (hinput : byteSize input ≤ limit) (h : dropBytes? input x = some s) :
    loop (blankRound limit input) x = pure (offsetOf input (Blank.skip s)) := by
  induction s using Blank.skip.induct generalizing x with
  | case1 => rw [loop_done (blankRound_settled h settled_nil), Blank.skip_nil, offsetOf_of_place h]
  | case2 c r hc ih =>
      rw [loop_again (blankRound_whitespace hinput h hc), Blank.skip_whitespace hc]
      exact ih (place_cons h)
  | case3 c r hc t ht ih =>
      rw [loop_again (blankRound_comment hinput h (by simpa using hc) ht), Blank.skip_comment ht]
      exact ih (place_of_suffix h (Blank.comment?_suffix ht))
  | case4 c r hc hr =>
      have hs := settled_of_not hc hr
      rw [loop_done (blankRound_settled h hs), hs.skip_eq, offsetOf_of_place h]

theorem skipBlank_eq (hinput : byteSize input ≤ limit) (x : Nat) :
    skipBlank limit input x = pure (Reader.skipBlank input x) := by
  rw [skipBlank, Reader.skipBlank]
  cases h : dropBytes? input x with
  | none =>
      rw [loop_done (blankRound_no_place h), restAt_of_no_place h, Blank.skip_nil]
      rfl
  | some s =>
      rw [loop_blankRound hinput h, restAt_of_place h]
      exact congrArg pure (advance_of_place h (Blank.skip_suffix s)).symm

/-! Escapes. -/

theorem dropTerminator_eq (hinput : byteSize input ≤ limit) (h : dropBytes? input x = some s) :
    dropTerminator limit input x = pure (offsetOf input (Escape.dropTerminator s)) := by
  rw [dropTerminator, slice_of_place h, pure_bind]
  by_cases hs : ['\r', '\n'] <+: s
  · obtain ⟨t, rfl⟩ := hs
    have ht : dropBytes? input (x + 2) = some t := place_append (w := ['\r', '\n']) h
    rw [if_pos (List.prefix_append _ _), add_of_place hinput ht, ← offsetOf_of_place ht]
    rfl
  · rw [if_neg hs]
    cases s with
    | nil =>
        simp only [peek_end h, Escape.dropTerminator, offsetOf_of_place h]
    | cons c s =>
        have hdrop : Escape.dropTerminator (c :: s) = if isWhitespace c then s else c :: s :=
          Escape.dropTerminator_cons fun t hc ht => hs (by rw [hc, ht]; exact List.prefix_append _ t)
        simp only [peek_cons h, hdrop]
        split
        · rw [add_of_place hinput (place_cons h), offsetOf_of_place (place_cons h)]
        · rw [offsetOf_of_place h]

/-- The bytes of the digits are as many as the digits. Behind them a character begins. -/
theorem place_of_digits (h : dropBytes? input x = some s) (n : Nat) :
    dropBytes? input (x + byteSize ((s.takeWhile isHexDigit).take n)) =
      some (s.drop ((s.takeWhile isHexDigit).take n).length) := by
  have hpre : (s.takeWhile isHexDigit).take n <+: s := (List.take_prefix _ _).trans (List.takeWhile_prefix _)
  obtain ⟨r, hr⟩ := hpre
  generalize (s.takeWhile isHexDigit).take n = ds at hr
  subst hr
  rw [List.drop_left]
  exact place_append h

/-- What is told of an escape whose backslash is at `x`. -/
def escapeAnswer (input : List Char) (x : Nat) : Option (Char × List Char) → Reader.Answer Char
  | none => .error (.invalidEscape x)
  | some (c, t) => .ok (c, offsetOf input t)

theorem escape_of_place (hinput : byteSize input ≤ limit) (hx : x < limit) (h : dropBytes? input (x + 1) = some s) :
    escape limit input x = pure (escapeAnswer input x (Escape.read s)) := by
  rw [escape, add_of_le hx, pure_bind]
  cases s with
  | nil => simp only [peek_end h, Escape.read, escapeAnswer]
  | cons c s =>
      simp only [peek_cons h, Escape.read]
      split
      · rfl
      · split
        · have hnext := place_of_digits h Escape.maxDigits
          simp only [slice_of_place h, pure_bind, add_of_place hinput hnext, dropTerminator_eq hinput hnext, escapeAnswer]
        · simp only [add_of_place hinput (place_cons h), pure_bind, offsetOf_of_place (place_cons h), escapeAnswer]

theorem reader_escape_of_place (h : dropBytes? input (x + 1) = some s) :
    Reader.escape input x = escapeAnswer input x (Escape.read s) := by
  rw [Reader.escape, restAt_of_place h]
  cases hr : Escape.read s with
  | none => rfl
  | some y => simp only [escapeAnswer, advance_of_place h (Escape.read_suffix hr)]

theorem reader_escape_of_no_place (h : dropBytes? input (x + 1) = none) :
    Reader.escape input x = .error (.invalidEscape x) := by
  rw [Reader.escape, restAt_of_no_place h]
  rfl

theorem escape_eq (hinput : byteSize input ≤ limit) (hx : x < limit) :
    escape limit input x = pure (Reader.escape input x) := by
  cases h : dropBytes? input (x + 1) with
  | none =>
      rw [reader_escape_of_no_place h, escape, add_of_le hx, pure_bind, peek_of_no_place h]
  | some s => rw [escape_of_place hinput hx h, reader_escape_of_place h]

end SelectorSyntax.Text.Cursor
