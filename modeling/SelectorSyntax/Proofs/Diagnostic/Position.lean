import SelectorSyntax.Diagnostic.SyntaxError

namespace SelectorSyntax.Text

open Place

namespace Place

variable {s t : List Char}

theorem takeBytes_append (s t : List Char) : takeBytes (s ++ t) (byteSize s) = s := by
  induction s with
  | nil =>
      cases t with
      | nil => rfl
      | cons c t =>
          rw [List.nil_append, byteSize_nil, takeBytes, if_neg (Nat.not_le.2 c.utf8Size_pos)]
  | cons c s ih =>
      rw [List.cons_append, byteSize_cons, takeBytes, if_pos (Nat.le_add_right _ _), Nat.add_sub_cancel_left, ih]

theorem byteSize_pos (h : s ≠ []) : 0 < byteSize s := by
  cases s with
  | nil => exact absurd rfl h
  | cons c s =>
      rw [byteSize_cons]
      exact Nat.add_pos_left c.utf8Size_pos _

theorem byteSize_toList (s : String) : byteSize s.toList = s.utf8ByteSize := by
  have hlist (s : List Char) : (String.ofList s).utf8ByteSize = byteSize s := by
    induction s with
    | nil => rfl
    | cons c s ih =>
        rw [String.ofList_cons, String.utf8ByteSize_append, String.utf8ByteSize_singleton, ih, byteSize_cons]
  rw [← hlist, String.ofList_toList]

end Place

/-- Lines of a text, each with its end: a line feed, or a carriage return and a line feed together. -/
inductive Lines : Nat → List Char → Prop
  | nil : Lines 0 []
  | lineFeed {n line rest} : '\n' ∉ line → line.getLast? ≠ some '\r' → Lines n rest →
      Lines (n + 1) (line ++ '\n' :: rest)
  | carriageReturn {n line rest} : '\n' ∉ line → Lines n rest → Lines (n + 1) (line ++ '\r' :: '\n' :: rest)

/-- The position behind the characters: so many lines have ended there, and so many characters of the
next one stand before it. -/
structure Marks (before : List Char) (p : Position) : Prop where
  offset : p.offset = byteSize before
  lines : ∃ n ended line, before = ended ++ line ∧ Lines n ended ∧ '\n' ∉ line ∧
    p.line = 1 + n ∧ p.column = 1 + line.length

variable {s t line rest before after : List Char} {n l c : Nat} {p : Position}

/-! Counting the lines. -/

theorem Lines.cons (hl : '\n' ∉ line) (h : Lines n rest) : Lines (n + 1) (line ++ '\n' :: rest) := by
  by_cases hr : line.getLast? = some '\r'
  · obtain ⟨front, rfl⟩ := List.getLast?_eq_some_iff.1 hr
    rw [List.append_assoc]
    exact .carriageReturn (fun hn => hl (List.mem_append_left _ hn)) h
  · exact .lineFeed hl hr h

/-- Every text is lines that have ended and one that has not. -/
theorem exists_lines (s : List Char) : ∃ n ended line, s = ended ++ line ∧ Lines n ended ∧ '\n' ∉ line := by
  generalize hk : s.length = k
  induction k using Nat.strongRecOn generalizing s with
  | ind k ih =>
      by_cases hs : '\n' ∈ s
      · obtain ⟨front, rest, rfl, hfront⟩ := List.eq_append_cons_of_mem hs
        have hlt : rest.length < k := by
          rw [← hk, List.length_append, List.length_cons]
          omega
        obtain ⟨n, ended, line, rfl, hn, hline⟩ := ih _ hlt rest rfl
        exact ⟨n + 1, front ++ '\n' :: ended, line, by simp, .cons hfront hn, hline⟩
      · exact ⟨0, [], s, rfl, .nil, hs⟩

namespace Position

theorem count_lineFeed : count (l, c) ('\n' :: s) = count (l + 1, 1) s := by
  rw [count]
  · rfl
  · exact nofun

/-- A carriage return counts as a character of its line. With a line feed behind it, that is soon forgotten. -/
theorem count_other {d : Char} (hd : d ≠ '\n') : count (l, c) (d :: s) = count (l, c + 1) s := by
  by_cases hs : ∃ t, d = '\r' ∧ s = '\n' :: t
  · obtain ⟨t, rfl, rfl⟩ := hs
    rw [count, count_lineFeed]
  · rw [count, if_neg hd]
    rintro t rfl rfl
    exact hs ⟨t, rfl, rfl⟩

theorem count_append (hl : '\n' ∉ line) : count (l, c) (line ++ s) = count (l, c + line.length) s := by
  induction line generalizing c with
  | nil => rfl
  | cons d line ih =>
      rw [List.mem_cons, not_or] at hl
      rw [List.cons_append, count_other (Ne.symm hl.1), ih hl.2, List.length_cons, Nat.add_right_comm, Nat.add_assoc]

theorem count_lines (h : Lines n s) : count (l, 1) (s ++ t) = count (l + n, 1) t := by
  induction h generalizing l with
  | nil => rfl
  | lineFeed hl _ _ ih =>
      rw [List.append_assoc, List.cons_append, count_append hl, count_lineFeed, ih, Nat.add_assoc, Nat.add_comm 1]
  | carriageReturn hl _ ih =>
      rw [List.append_assoc, List.cons_append, List.cons_append, count_append hl, count_other (by decide),
        count_lineFeed, ih, Nat.add_assoc, Nat.add_comm 1]

theorem ofOffset_append (before after : List Char) :
    ofOffset (before ++ after) (byteSize before) =
      ⟨byteSize before, (count (1, 1) before).1, (count (1, 1) before).2⟩ := by
  have hle : byteSize before ≤ byteSize (before ++ after) := by
    rw [byteSize_append]
    exact Nat.le_add_right _ _
  simp only [ofOffset, Nat.min_eq_left hle, takeBytes_append, dropBytes?_append, Option.isSome_some, if_true]

theorem marks_ofOffset (before after : List Char) :
    Marks before (ofOffset (before ++ after) (byteSize before)) := by
  obtain ⟨n, ended, line, hs, hn, hl⟩ := exists_lines before
  have hcount : count (1, 1) before = (1 + n, 1 + line.length) := by
    have hline := count_append (s := []) (l := 1 + n) (c := 1) hl
    rw [List.append_nil] at hline
    rw [hs, count_lines hn, hline, count]
  rw [ofOffset_append, hcount]
  exact ⟨rfl, n, ended, line, hs, hn, hl, rfl, rfl⟩

end Position

end SelectorSyntax.Text
