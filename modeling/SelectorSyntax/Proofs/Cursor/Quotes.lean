import SelectorSyntax.Proofs.Cursor.Names
import SelectorSyntax.Proofs.Tokens.StringAgreement

namespace SelectorSyntax.Text.Cursor

open CharClass Place

variable {limit x : Nat} {input : List Char} {q c d : Char} {s t : List Char} {p : Progress}

theorem quotedRound_close (hinput : byteSize input ≤ limit) (h : dropBytes? input p.cursor = some (q :: s)) :
    quotedRound limit input x q p = pure (.done (.ok (p.value, p.cursor + 1))) := by
  have hsize := size_of_place h
  have hpos : 0 < byteSize (q :: s) := byteSize_pos (List.cons_ne_nil q s)
  have hnext : p.cursor + 1 ≤ limit := by omega
  simp only [quotedRound, peek_cons h, if_true, add_of_le hnext, pure_bind]

theorem quotedRound_end (h : ∀ c, peek input p.cursor = some c → c ≠ q ∧ isNewline c = true) :
    quotedRound limit input x q p = pure (.done (.error (.unterminatedString x))) := by
  rw [quotedRound]
  split
  next => rfl
  next c hc =>
    obtain ⟨hq, hn⟩ := h c hc
    rw [if_neg hq, if_pos hn]

theorem quotedRound_char (hinput : byteSize input ≤ limit) (h : dropBytes? input p.cursor = some (c :: s))
    (hq : c ≠ q) (hn : isNewline c = false) (hb : c ≠ '\\') :
    quotedRound limit input x q p = pure (.again ⟨p.value ++ [c], p.cursor + c.utf8Size⟩) := by
  simp only [quotedRound, peek_cons h, if_neg hq, hn, Bool.false_eq_true, if_false, if_neg hb, push_eq hinput h,
    pure_bind]

theorem quotedRound_backslash (h : dropBytes? input p.cursor = some ('\\' :: s)) (hq : '\\' ≠ q) :
    quotedRound limit input x q p = backslashRound limit input x p := by
  simp only [quotedRound, peek_cons h, if_neg hq, show isNewline '\\' = false from rfl, Bool.false_eq_true, if_false,
    if_true]

theorem quotedRound_continue (hinput : byteSize input ≤ limit) (h : dropBytes? input p.cursor = some ('\\' :: s))
    (hq : '\\' ≠ q) (hs : Quoted.continuation? s = some t) :
    quotedRound limit input x q p = pure (.again { p with cursor := offsetOf input t }) := by
  have hnext : dropBytes? input (p.cursor + 1) = some s := place_cons h
  rw [quotedRound_backslash h hq, backslashRound, add_of_place hinput hnext, pure_bind, slice_of_place hnext, pure_bind]
  rcases Quoted.continuation?_cases hs with rfl | ⟨c, rfl, hc, hcr⟩
  · have ht : dropBytes? input (p.cursor + 3) = some t := place_append (w := ['\\', '\r', '\n']) h
    have hpre : ['\r', '\n'] <+: '\r' :: '\n' :: t := List.prefix_append ['\r', '\n'] t
    rw [if_pos hpre, add_of_place hinput ht, pure_bind, offsetOf_of_place ht]
  · have ht : dropBytes? input (p.cursor + (1 + c.utf8Size)) = some t := place_append (w := ['\\', c]) h
    have hpre : ¬ ['\r', '\n'] <+: c :: t := by
      rintro ⟨u, hu⟩
      cases hu
      exact hcr u ⟨rfl, rfl⟩
    simp only [if_neg hpre, peek_cons hnext, hc, if_true, add_of_place hinput ht, pure_bind, offsetOf_of_place ht]

theorem quotedRound_escape (hinput : byteSize input ≤ limit) (h : dropBytes? input p.cursor = some ('\\' :: s))
    (hq : '\\' ≠ q) (hc : Quoted.continuation? s = none) (hs : Escape.read s = some (d, t)) :
    quotedRound limit input x q p = pure (.again ⟨p.value ++ [d], offsetOf input t⟩) := by
  have hnext : dropBytes? input (p.cursor + 1) = some s := place_cons h
  rw [quotedRound_backslash h hq, backslashRound, add_of_place hinput hnext, pure_bind, slice_of_place hnext, pure_bind]
  cases s with
  | nil => cases hs
  | cons c r =>
      have hn := Quoted.continuation?_cons_eq_none.1 hc
      have hpre : ¬ ['\r', '\n'] <+: c :: r := by
        rintro ⟨u, hu⟩
        cases hu
        cases hn
      simp only [if_neg hpre, peek_cons hnext, hn, Bool.false_eq_true, if_false, pushEscape_of_place hinput h, hs,
        pure_bind]

/-- The text ends with a backslash. -/
theorem quotedRound_stop (hinput : byteSize input ≤ limit) (h : dropBytes? input p.cursor = some ['\\'])
    (hq : '\\' ≠ q) : quotedRound limit input x q p = pure (.done (.error (.unterminatedString x))) := by
  have hnext : dropBytes? input (p.cursor + 1) = some [] := place_cons h
  rw [quotedRound_backslash h hq, backslashRound, add_of_place hinput hnext, pure_bind, slice_of_place hnext, pure_bind,
    if_neg (by decide), peek_end hnext]

theorem advances_quotedRound (hinput : byteSize input ≤ limit) (x : Nat) (q : Char) :
    Advances input Progress.cursor (quotedRound limit input x q) := by
  intro p
  cases h : dropBytes? input p.cursor with
  | none => exact .done (quotedRound_end (by simp [peek_of_no_place h]))
  | some s =>
      induction s using Quoted.readBody.induct q with
      | case1 => exact .done (quotedRound_end (by simp [peek_end h]))
      | case2 r => exact .done (quotedRound_close hinput h)
      | case3 c r hq hn => exact .done (quotedRound_end (by simpa [peek_cons h, hq] using hn))
      | case4 r t hc hq =>
          exact .again (quotedRound_continue hinput h hq hc) (ahead_of_tail h (Quoted.continuation?_suffix hc))
      | case5 r hc he hq =>
          obtain rfl := Quoted.eq_nil_of_no_escape hc he
          exact .done (quotedRound_stop hinput h hq)
      | case6 r hc d t he hq =>
          exact .again (quotedRound_escape hinput h hq hc he) (ahead_of_tail h (Escape.read_suffix he))
      | case7 c r hq hn hb =>
          exact .again (quotedRound_char hinput h hq (by simpa using hn) hb) (ahead_of_cons h)

/-- The rest of a text that is quoted from `x` on, when `v` has been read of it. -/
def quotedAnswer (input : List Char) (x : Nat) (v : List Char) :
    Option (List Char × List Char) → Reader.Answer (List Char)
  | none => .error (.unterminatedString x)
  | some (w, t) => .ok (v ++ w, offsetOf input t)

theorem quotedAnswer_map (v : List Char) (d : Char) (r : Option (List Char × List Char)) :
    quotedAnswer input x v (r.map fun (w, t) => (d :: w, t)) = quotedAnswer input x (v ++ [d]) r := by
  cases r with
  | none => rfl
  | some y => simp only [Option.map_some, quotedAnswer, List.append_assoc, List.singleton_append]

theorem loop_quotedRound (hinput : byteSize input ≤ limit) (hquote : isQuote q = true)
    (h : dropBytes? input p.cursor = some s) :
    loop (quotedRound limit input x q) p = pure (quotedAnswer input x p.value (Quoted.readBody q s)) := by
  induction s using Quoted.readBody.induct q generalizing p with
  | case1 =>
      rw [loop_done (quotedRound_end (by simp [peek_end h])), Quoted.readBody]
      rfl
  | case2 r =>
      have hr : dropBytes? input (p.cursor + 1) = some r := by
        rcases Grammar.isQuote_cases hquote with rfl | rfl <;> exact place_cons h
      rw [loop_done (quotedRound_close hinput h), Quoted.readBody_close, quotedAnswer, List.append_nil,
        offsetOf_of_place hr]
  | case3 c r hq hn =>
      rw [loop_done (quotedRound_end (by simpa [peek_cons h, hq] using hn)), Quoted.readBody, if_neg hq, if_pos hn]
      rfl
  | case4 r t hc hq hn ih =>
      rw [loop_again (quotedRound_continue hinput h hq hc), Quoted.readBody_continue hq hc]
      exact ih (place_of_tail h (Quoted.continuation?_suffix hc))
  | case5 r hc he hq hn =>
      obtain rfl := Quoted.eq_nil_of_no_escape hc he
      rw [loop_done (quotedRound_stop hinput h hq), Quoted.readBody, if_neg hq, if_neg hn, if_pos rfl, hc, he]
      rfl
  | case6 r hc d t he hq hn ih =>
      rw [loop_again (quotedRound_escape hinput h hq hc he), Quoted.readBody_escape hq he, quotedAnswer_map]
      exact ih (place_of_tail h (Escape.read_suffix he))
  | case7 c r hq hn hb ih =>
      have hplain : Grammar.Plain q c := ⟨hq, hb, by simpa using hn⟩
      rw [loop_again (quotedRound_char hinput h hq hplain.2.2 hb), Quoted.readBody_plain hplain, quotedAnswer_map]
      exact ih (place_cons h)

theorem quoted_of_place (hinput : byteSize input ≤ limit) (h : dropBytes? input x = some s) :
    quoted limit input x = pure (quotedAnswer input x [] (Quoted.read s)) := by
  cases s with
  | nil => simp only [quoted, peek_end h, Quoted.read, quotedAnswer]
  | cons q r =>
      simp only [quoted, peek_cons h, Quoted.read]
      split
      next hquote =>
        have hr : dropBytes? input (x + 1) = some r := by
          rcases Grammar.isQuote_cases hquote with rfl | rfl <;> exact place_cons h
        rw [add_of_place hinput hr, pure_bind]
        exact loop_quotedRound (p := ⟨[], x + 1⟩) hinput hquote hr
      next => rfl

theorem reader_quoted_of_place (h : dropBytes? input x = some s) :
    Reader.quoted input x = quotedAnswer input x [] (Quoted.read s) := by
  rw [Reader.quoted, restAt_of_place h]
  cases hr : Quoted.read s with
  | none => rfl
  | some y => simp only [quotedAnswer, List.nil_append, advance_of_place h (Quoted.read_suffix hr)]

theorem reader_quoted_of_no_place (h : dropBytes? input x = none) :
    Reader.quoted input x = .error (.unterminatedString x) := by
  rw [Reader.quoted, restAt_of_no_place h]
  rfl

theorem quoted_eq (hinput : byteSize input ≤ limit) (x : Nat) :
    quoted limit input x = pure (Reader.quoted input x) := by
  cases h : dropBytes? input x with
  | none => rw [reader_quoted_of_no_place h, quoted, peek_of_no_place h]
  | some s => rw [quoted_of_place hinput h, reader_quoted_of_place h]

end SelectorSyntax.Text.Cursor
