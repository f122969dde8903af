import SelectorSyntax.Text.CharClass
namespace SelectorSyntax.Text.Blank

open CharClass

def closeComment? : List Char → Option (List Char)
  | '*' :: '/' :: s => some s
  | _ :: s => closeComment? s
  | [] => none

/-- What follows the comment at the front of the text. An open comment that never closes is none. -/
def comment? : List Char → Option (List Char)
  | '/' :: '*' :: s => closeComment? s
  | _ => none

theorem closeComment?_length {s t : List Char} (h : closeComment? s = some t) : t.length < s.length := by
  induction s using closeComment?.induct with
  | case1 s =>
      rw [closeComment?] at h
      cases h
      exact Nat.lt_succ_of_lt (Nat.lt_succ_self _)
  | case2 c s hc ih =>
      rw [closeComment?] at h
      · exact Nat.lt_succ_of_lt (ih h)
      · exact hc
  | case3 =>
      rw [closeComment?] at h
      cases h

theorem comment?_length {s t : List Char} (h : comment? s = some t) : t.length < s.length := by
  unfold comment? at h
  split at h
  · exact Nat.lt_succ_of_lt (Nat.lt_succ_of_lt (closeComment?_length h))
  · cases h

/-- What follows the whitespace and the closed comments at the front of the text. -/
def skip (s : List Char) : List Char :=
  match s with
  | [] => []
  | c :: r =>
    if isWhitespace c then skip r
    else match _h : comment? (c :: r) with
      | some t => skip t
      | none => c :: r
termination_by s.length
decreasing_by
  · exact Nat.lt_succ_self _
  · exact comment?_length _h

end SelectorSyntax.Text.Blank
