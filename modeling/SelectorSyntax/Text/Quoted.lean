import SelectorSyntax.Text.Escape
namespace SelectorSyntax.Text.Quoted

open CharClass

/-- A backslash before a newline continues the text on the next line and adds nothing to it. -/
def continuation? : List Char → Option (List Char)
  | '\r' :: '\n' :: s => some s
  | c :: s => if isNewline c then some s else none
  | [] => none

theorem continuation?_length {s t : List Char} (h : continuation? s = some t) : t.length < s.length := by
  unfold continuation? at h
  split at h
  · cases h
    exact Nat.lt_succ_of_lt (Nat.lt_succ_self _)
  · split at h
    · cases h
      exact Nat.lt_succ_self _
    · cases h
  · cases h

/-- Reads from behind the opening quote `q` to behind the closing one. -/
def readBody (q : Char) (s : List Char) : Option (List Char × List Char) :=
  match s with
  | [] => none
  | c :: r =>
    if c = q then some ([], r)
    else if isNewline c then none
    else if c = '\\' then
      match _hc : continuation? r with
      | some t => readBody q t
      | none =>
        match _he : Escape.read r with
        | none => none
        | some (d, t) => (readBody q t).map fun (v, u) => (d :: v, u)
    else (readBody q r).map fun (v, u) => (c :: v, u)
termination_by s.length
decreasing_by
  · exact Nat.lt_succ_of_lt (continuation?_length _hc)
  · exact Nat.lt_succ_of_lt (Escape.read_length _he)
  · exact Nat.lt_succ_self _

theorem readBody_length {q : Char} {s v t : List Char} (h : readBody q s = some (v, t)) : t.length < s.length := by
  induction s using readBody.induct q generalizing v t with
  | case1 =>
      rw [readBody] at h
      cases h
  | case2 r =>
      rw [readBody, if_pos rfl] at h
      cases h
      exact Nat.lt_succ_self _
  | case3 c r hq hn =>
      rw [readBody, if_neg hq, if_pos hn] at h
      cases h
  | case4 r u hc hq hn ih =>
      rw [readBody, if_neg hq, if_neg hn, if_pos rfl, hc] at h
      exact Nat.lt_trans (ih h) (Nat.lt_succ_of_lt (continuation?_length hc))
  | case5 r hc he hq hn =>
      rw [readBody, if_neg hq, if_neg hn, if_pos rfl, hc, he] at h
      cases h
  | case6 r hc d u he hq hn ih =>
      rw [readBody, if_neg hq, if_neg hn, if_pos rfl, hc, he] at h
      obtain ⟨⟨w, x⟩, hw, hx⟩ := Option.map_eq_some_iff.1 h
      cases hx
      exact Nat.lt_trans (ih hw) (Nat.lt_succ_of_lt (Escape.read_length he))
  | case7 c r hq hn hb ih =>
      rw [readBody, if_neg hq, if_neg hn, if_neg hb] at h
      obtain ⟨⟨w, x⟩, hw, hx⟩ := Option.map_eq_some_iff.1 h
      cases hx
      exact Nat.lt_succ_of_lt (ih hw)

/-- Reads quoted text at the front; it has to close before its line ends. -/
def read : List Char → Option (List Char × List Char)
  | [] => none
  | c :: r => if isQuote c then readBody c r else none

/-- The value of the quoted text at the front, whatever follows it. -/
def decode (s : List Char) : Option (List Char) := (read s).map Prod.fst

end SelectorSyntax.Text.Quoted
