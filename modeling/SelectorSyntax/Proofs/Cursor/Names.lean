import SelectorSyntax.Proofs.Cursor.Escapes
import SelectorSyntax.Proofs.Tokens.IdentifierAgreement

namespace SelectorSyntax.Text.Identifier

open CharClass

variable {s t whole v : List Char} {x : Reading}

/-- Whatever a reading tells of is a place of the text. -/
def Within (s : List Char) : Reading → Prop
  | .ok (_, t) => t <:+ s
  | .error (.missing p) => p <:+ s
  | .error (.badEscape p) => p <:+ s

theorem within_prepend : Within s (x.prepend v) ↔ Within s x := by
  rcases x with (p | p) | ⟨w, t⟩ <;> rfl

theorem Within.mono (h : Within t x) (ht : t <:+ s) : Within s x := by
  rcases x with (p | p) | ⟨w, u⟩ <;> exact h.trans ht

theorem within_readTail (s : List Char) : Within s (readTail s) := by
  induction s using readTail.induct with
  | case1 =>
      rw [readTail_nil]
      exact List.suffix_rfl
  | case2 r hr =>
      rw [readTail, if_pos rfl, hr]
      exact List.suffix_rfl
  | case3 r d t hr ih =>
      rw [readTail_escape hr, within_prepend]
      exact ih.mono ((Escape.read_suffix hr).trans (List.suffix_cons _ r))
  | case4 c r hb hc ih =>
      rw [readTail_char hc, within_prepend]
      exact ih.mono (List.suffix_cons c r)
  | case5 c r hb hc =>
      rw [readTail, if_neg hb, if_neg hc]
      exact List.suffix_rfl

theorem within_readHead (hs : s <:+ whole) : Within whole (readHead whole s) := by
  cases s with
  | nil => exact List.suffix_rfl
  | cons c r =>
      have hr := (List.suffix_cons c r).trans hs
      rw [readHead]
      split
      · split
        next => exact hs
        next d t hd =>
          rw [within_prepend]
          exact (within_readTail t).mono ((Escape.read_suffix hd).trans hr)
      · split
        · rw [within_prepend]
          exact (within_readTail r).mono hr
        · exact List.suffix_rfl

theorem within_read (s : List Char) : Within s (read s) := by
  unfold read
  split
  next r =>
    rw [within_prepend]
    exact (within_readTail r).mono ((List.suffix_cons _ r).trans (List.suffix_cons _ _))
  next r _ =>
    rw [within_prepend]
    exact within_readHead (List.suffix_cons _ r)
  next => exact within_readHead List.suffix_rfl

end SelectorSyntax.Text.Identifier

namespace SelectorSyntax.Text.Cursor

open CharClass Place

variable {limit x : Nat} {input : List Char} {c d : Char} {s t : List Char} {p : Progress}

/-! What is read next. -/

theorem push_eq (hinput : byteSize input ≤ limit) (h : dropBytes? input p.cursor = some (c :: s)) :
    p.push limit c = pure ⟨p.value ++ [c], p.cursor + c.utf8Size⟩ := by
  rw [Progress.push, add_of_place hinput (place_cons h), pure_bind]

theorem pushEscape_of_place (hinput : byteSize input ≤ limit) (h : dropBytes? input p.cursor = some ('\\' :: s)) :
    p.pushEscape limit input = pure (match Escape.read s with
      | none => .error (.invalidEscape p.cursor)
      | some (d, t) => .ok ⟨p.value ++ [d], offsetOf input t⟩) := by
  have hsize := size_of_place h
  have hbackslash : 0 < byteSize ('\\' :: s) := byteSize_pos (List.cons_ne_nil _ _)
  rw [Progress.pushEscape, escape_of_place hinput (by omega) (place_cons h), pure_bind]
  cases Escape.read s <;> rfl

/-! Identifiers. -/

theorem identifierRound_escape (hinput : byteSize input ≤ limit) (h : dropBytes? input p.cursor = some ('\\' :: s))
    (hs : Escape.read s = some (d, t)) :
    identifierRound limit input p = pure (.again ⟨p.value ++ [d], offsetOf input t⟩) := by
  simp only [identifierRound, peek_cons h, if_true, pushEscape_of_place hinput h, hs, pure_bind]

theorem identifierRound_badEscape (hinput : byteSize input ≤ limit)
    (h : dropBytes? input p.cursor = some ('\\' :: s)) (hs : Escape.read s = none) :
    identifierRound limit input p = pure (.done (.error (.invalidEscape p.cursor))) := by
  simp only [identifierRound, peek_cons h, if_true, pushEscape_of_place hinput h, hs, pure_bind]

theorem identifierRound_char (hinput : byteSize input ≤ limit) (h : dropBytes? input p.cursor = some (c :: s))
    (hb : c ≠ '\\') (hc : isIdentChar c = true) :
    identifierRound limit input p = pure (.again ⟨p.value ++ [c], p.cursor + c.utf8Size⟩) := by
  simp only [identifierRound, peek_cons h, if_neg hb, hc, if_true, push_eq hinput h, pure_bind]

theorem identifierRound_end (h : ∀ c, peek input p.cursor = some c → c ≠ '\\' ∧ isIdentChar c = false) :
    identifierRound limit input p = pure (.done (.ok (p.value, p.cursor))) := by
  rw [identifierRound]
  split
  next => rfl
  next c hc =>
    obtain ⟨hb, hi⟩ := h c hc
    rw [if_neg hb, if_neg (by simp [hi])]

theorem advances_identifierRound (hinput : byteSize input ≤ limit) :
    Advances input Progress.cursor (identifierRound limit input) := by
  intro p
  cases h : dropBytes? input p.cursor with
  | none => exact .done (identifierRound_end (by simp [peek_of_no_place h]))
  | some s =>
      induction s using Identifier.readTail.induct with
      | case1 => exact .done (identifierRound_end (by simp [peek_end h]))
      | case2 r hr => exact .done (identifierRound_badEscape hinput h hr)
      | case3 r d t hr =>
          exact .again (identifierRound_escape hinput h hr) (ahead_of_tail h (Escape.read_suffix hr))
      | case4 c r hb hc => exact .again (identifierRound_char hinput h hb hc) (ahead_of_cons h)
      | case5 c r hb hc => exact .done (identifierRound_end (by simpa [peek_cons h, hb] using hc))

/-- A reading with its places told by their offsets. -/
def answer (input : List Char) : Identifier.Reading → Reader.Answer (List Char)
  | .error (.missing p) => .error (.expectedIdentifier (offsetOf input p))
  | .error (.badEscape p) => .error (.invalidEscape (offsetOf input p))
  | .ok (v, t) => .ok (v, offsetOf input t)

theorem loop_identifierRound (hinput : byteSize input ≤ limit) (h : dropBytes? input p.cursor = some s) :
    loop (identifierRound limit input) p = pure (answer input ((Identifier.readTail s).prepend p.value)) := by
  induction s using Identifier.readTail.induct generalizing p with
  | case1 =>
      rw [loop_done (identifierRound_end (by simp [peek_end h])), Identifier.readTail_nil, ← offsetOf_of_place h]
      simp [Identifier.Reading.prepend, Except.map, answer]
  | case2 r hr =>
      rw [loop_done (identifierRound_badEscape hinput h hr), Identifier.readTail, if_pos rfl, hr, ← offsetOf_of_place h]
      rfl
  | case3 r d t hr ih =>
      have ht := place_of_tail h (Escape.read_suffix hr)
      rw [loop_again (identifierRound_escape hinput h hr), Identifier.readTail_escape hr, Identifier.prepend_prepend]
      exact ih ht
  | case4 c r hb hc ih =>
      rw [loop_again (identifierRound_char hinput h hb hc), Identifier.readTail_char hc, Identifier.prepend_prepend]
      exact ih (place_cons h)
  | case5 c r hb hc =>
      rw [loop_done (identifierRound_end (by simpa [peek_cons h, hb] using hc)), Identifier.readTail, if_neg hb,
        if_neg hc, ← offsetOf_of_place h]
      simp [Identifier.Reading.prepend, Except.map, answer]

/-- The first character and the rest, read on from where the dashes of an identifier at `whole` end. -/
theorem identifierFirst_tail {whole : List Char} (hinput : byteSize input ≤ limit)
    (hwhole : dropBytes? input x = some whole) (h : dropBytes? input p.cursor = some s) :
    (do identifierTail limit input (← identifierFirst limit input x p)) =
      pure (answer input ((Identifier.readHead whole s).prepend p.value)) := by
  cases s with
  | nil =>
      simp only [identifierFirst, peek_end h, pure_bind, ← offsetOf_of_place hwhole]
      rfl
  | cons c r =>
      by_cases hb : c = '\\'
      · subst hb
        simp only [identifierFirst, peek_cons h, if_true, pushEscape_of_place hinput h, pure_bind]
        cases hr : Escape.read r with
        | none =>
            rw [Identifier.readHead, if_pos rfl, hr, ← offsetOf_of_place h]
            rfl
        | some y =>
            have ht := place_of_tail h (Escape.read_suffix hr)
            rw [Identifier.readHead_escape hr, Identifier.prepend_prepend]
            exact loop_identifierRound hinput ht
      · by_cases hc : isIdentStart c = true
        · simp only [identifierFirst, peek_cons h, if_neg hb, hc, if_true, push_eq hinput h, pure_bind]
          rw [Identifier.readHead_char hc, Identifier.prepend_prepend]
          exact loop_identifierRound hinput (place_cons h)
        · simp only [identifierFirst, peek_cons h, if_neg hb, hc, Bool.false_eq_true, if_false, pure_bind]
          rw [Identifier.readHead, if_neg hb, if_neg hc, ← offsetOf_of_place hwhole]
          rfl

theorem identifier_of_place (hinput : byteSize input ≤ limit) (h : dropBytes? input x = some s) :
    identifier limit input x = pure (answer input (Identifier.read s)) := by
  rw [identifier, identifierHead, slice_of_place h, pure_bind]
  by_cases hd : ['-', '-'] <+: s
  · obtain ⟨r, rfl⟩ := hd
    have hr : dropBytes? input (x + 2) = some r := place_append (w := ['-', '-']) h
    rw [if_pos (List.prefix_append _ _), add_of_place hinput hr]
    simp only [pure_bind]
    exact loop_identifierRound hinput hr
  · rw [if_neg hd]
    by_cases hs : s.head? = some '-'
    · obtain ⟨r, rfl⟩ := List.head?_eq_some_iff.1 hs
      have hr : r.head? ≠ some '-' := by
        intro hr
        obtain ⟨u, rfl⟩ := List.head?_eq_some_iff.1 hr
        exact hd (List.prefix_append ['-', '-'] u)
      have hpush := push_eq (p := ⟨[], x⟩) hinput h
      rw [if_pos (peek_cons h), hpush, pure_bind, Identifier.read_dash hr]
      exact identifierFirst_tail hinput h (place_cons h)
    · rw [if_neg (by rwa [peek_of_place h]), Identifier.read_start hs]
      have hfirst := identifierFirst_tail (p := ⟨[], x⟩) hinput h h
      rwa [Identifier.prepend_nil] at hfirst

theorem identifier?_of_place (h : dropBytes? input x = some s) :
    Reader.identifier? input x = some (answer input (Identifier.read s)) := by
  rw [Reader.identifier?, h, Option.map_some]
  have hwithin := Identifier.within_read s
  rcases hr : Identifier.read s with (p | p) | ⟨v, t⟩ <;> rw [hr] at hwithin
  · exact congrArg (fun o => some (Except.error (LexicalError.expectedIdentifier o))) (advance_of_place h hwithin)
  · exact congrArg (fun o => some (Except.error (LexicalError.invalidEscape o))) (advance_of_place h hwithin)
  · exact congrArg (fun o => some (Except.ok (v, o))) (advance_of_place h hwithin)

/-- An identifier is read from a slice that need not begin at a place of the text. -/
theorem identifier_of_no_place (h : dropBytes? input x = none) :
    identifier limit input x = throw (if byteSize input < x then .outside else .inside) := by
  rw [identifier, identifierHead, slice_of_no_place h, throw_bind, throw_bind]

end SelectorSyntax.Text.Cursor
