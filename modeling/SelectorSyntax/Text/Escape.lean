import SelectorSyntax.Text.CharClass
namespace SelectorSyntax.Text.Escape

open CharClass

def maxDigits : Nat := 6

def replacement : Char := '\ufffd'

def value (digits : List Char) : Nat := digits.foldl (fun n c => 16 * n + (hexValue? c).getD 0) 0

/-- Zero, the surrogates and what lies beyond the last code point name no character that could be
put into a text, so they all stand for the replacement character. -/
def ofCode (n : Nat) : Char := if n = 0 ∨ ¬ n.isValidChar then replacement else Char.ofNat n

/-- One whitespace ends the digits and belongs to the escape; a carriage return and its line feed
are one. -/
def dropTerminator : List Char → List Char
  | '\r' :: '\n' :: s => s
  | c :: s => if isWhitespace c then s else c :: s
  | [] => []

/-- A backslash starts an escape unless a newline or the end follows it. -/
def isValid : List Char → Bool
  | '\\' :: c :: _ => !isNewline c
  | _ => false

/-- Reads an escape from behind its backslash. -/
def read : List Char → Option (Char × List Char)
  | [] => none
  | c :: s =>
    if isNewline c then none
    else if isHexDigit c then
      let digits := ((c :: s).takeWhile isHexDigit).take maxDigits
      some (ofCode (value digits), dropTerminator ((c :: s).drop digits.length))
    else some (c, s)

theorem dropTerminator_length (s : List Char) : (dropTerminator s).length ≤ s.length := by
  unfold dropTerminator
  split
  · exact Nat.le_succ_of_le (Nat.le_succ _)
  · split
    · exact Nat.le_succ _
    · exact Nat.le_refl _
  · exact Nat.le_refl _

theorem read_length {s r : List Char} {c : Char} (h : read s = some (c, r)) : r.length < s.length := by
  cases s with
  | nil => cases h
  | cons d s =>
      simp only [read] at h
      split at h
      · cases h
      · split at h
        · next hd =>
          cases h
          refine Nat.lt_of_le_of_lt (dropTerminator_length _) ?_
          simp only [List.takeWhile_cons, hd, if_true, maxDigits, List.take_succ_cons, List.length_cons,
            List.drop_succ_cons, List.length_drop]
          omega
        · cases h
          exact Nat.lt_succ_self _

end SelectorSyntax.Text.Escape
