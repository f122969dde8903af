namespace SelectorSyntax.Text.Place

/-- A place in a text is what is left of the text there. Its offset is the number of UTF-8 bytes
before it, so two places of one text are as far apart as their byte sizes. -/
def byteSize (s : List Char) : Nat := s.foldr (fun c n => c.utf8Size + n) 0

@[simp] theorem byteSize_nil : byteSize [] = 0 := rfl

@[simp] theorem byteSize_cons (c : Char) (s : List Char) : byteSize (c :: s) = c.utf8Size + byteSize s := rfl

@[simp] theorem byteSize_append (s t : List Char) : byteSize (s ++ t) = byteSize s + byteSize t := by
  induction s with
  | nil => simp
  | cons c s ih => rw [List.cons_append, byteSize_cons, byteSize_cons, ih, Nat.add_assoc]

/-- What is left behind the first `n` bytes, if a character starts or the text ends there. -/
def dropBytes? : List Char → Nat → Option (List Char)
  | s, 0 => some s
  | [], _ + 1 => none
  | c :: s, n + 1 => if c.utf8Size ≤ n + 1 then dropBytes? s (n + 1 - c.utf8Size) else none

/-- The characters that lie wholly within the first `n` bytes. -/
def takeBytes : List Char → Nat → List Char
  | [], _ => []
  | c :: s, n => if c.utf8Size ≤ n then c :: takeBytes s (n - c.utf8Size) else []

/-- Where no character starts there is nothing to read, as at the end. -/
def restAt (text : List Char) (offset : Nat) : List Char := (dropBytes? text offset).getD []

def offsetOf (text place : List Char) : Nat := byteSize text - byteSize place

/-- The characters from one place up to a later one. -/
def between (start stop : List Char) : List Char := start.take (start.length - stop.length)

theorem between_append (s t : List Char) : between (s ++ t) t = s := by
  simp [between]

theorem offsetOf_append (s t : List Char) : offsetOf (s ++ t) t = byteSize s := by
  simp [offsetOf]

theorem dropBytes?_append (s t : List Char) : dropBytes? (s ++ t) (byteSize s) = some t := by
  induction s with
  | nil => cases t <;> rfl
  | cons c s ih =>
      have hc := c.utf8Size_pos
      obtain ⟨n, hn⟩ : ∃ n, byteSize (c :: s) = n + 1 := ⟨c.utf8Size + byteSize s - 1, by rw [byteSize_cons]; omega⟩
      have hs : n + 1 - c.utf8Size = byteSize s := by rw [← hn, byteSize_cons, Nat.add_sub_cancel_left]
      have hle : c.utf8Size ≤ n + 1 := by rw [← hn, byteSize_cons]; exact Nat.le_add_right _ _
      rw [hn, List.cons_append, dropBytes?, if_pos hle, hs, ih]

end SelectorSyntax.Text.Place
