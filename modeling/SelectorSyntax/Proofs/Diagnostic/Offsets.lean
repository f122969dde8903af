import Mathlib.Data.Prod.Lex
import Mathlib.Order.Bounds.Basic
import SelectorSyntax.Proofs.Diagnostic.Label

namespace SelectorSyntax.Text

open Place

variable {text before after s t : List Char} {m n o o' : Nat} {lc : Nat × Nat} {p : Position}

namespace Place

theorem takeBytes_append_of_le (h : byteSize s ≤ n) : takeBytes (s ++ t) n = s ++ takeBytes t (n - byteSize s) := by
  induction s generalizing n with
  | nil => rfl
  | cons c s ih =>
      rw [byteSize_cons] at h
      rw [List.cons_append, takeBytes, if_pos (by omega), ih (by omega), byteSize_cons, Nat.sub_sub, List.cons_append]

theorem takeBytes_front (s : List Char) (n : Nat) : takeBytes s n <+: s := by
  induction s generalizing n with
  | nil => exact List.prefix_rfl
  | cons c s ih =>
      rw [takeBytes]
      split
      · exact List.cons_prefix_cons.2 ⟨rfl, ih _⟩
      · exact List.nil_prefix

theorem byteSize_takeBytes_le (s : List Char) (n : Nat) : byteSize (takeBytes s n) ≤ n := by
  induction s generalizing n with
  | nil => exact Nat.zero_le n
  | cons c s ih =>
      rw [takeBytes]
      split
      next hc =>
        have h := ih (n - c.utf8Size)
        rw [byteSize_cons]
        omega
      next => exact Nat.zero_le n

theorem takeBytes_mono (text : List Char) (h : m ≤ n) : takeBytes text m <+: takeBytes text n := by
  obtain ⟨rest, hrest⟩ := takeBytes_front text m
  have hle := (byteSize_takeBytes_le text m).trans h
  have htake := takeBytes_append_of_le (t := rest) hle
  rw [hrest] at htake
  exact ⟨_, htake.symm⟩

/-- The characters that lie wholly below an offset end at the last boundary that is not above it. -/
theorem isGreatest_takeBytes (text : List Char) (n : Nat) :
    IsGreatest {b | IsBoundary text b ∧ b ≤ n} (byteSize (takeBytes text n)) := by
  obtain ⟨rest, hrest⟩ := takeBytes_front text n
  refine ⟨⟨⟨_, rest, hrest.symm, rfl⟩, byteSize_takeBytes_le text n⟩, ?_⟩
  rintro b ⟨⟨s, t, rfl, rfl⟩, hb⟩
  rw [takeBytes_append_of_le hb, byteSize_append]
  exact Nat.le_add_right _ _

theorem eq_takeBytes_append_of_dropBytes? (h : dropBytes? s n = some t) :
    s = takeBytes s n ++ t ∧ byteSize (takeBytes s n) = n := by
  induction s generalizing n with
  | nil =>
      cases n with
      | zero =>
          cases h
          exact ⟨rfl, rfl⟩
      | succ n => cases h
  | cons c s ih =>
      cases n with
      | zero =>
          cases h
          rw [takeBytes, if_neg (Nat.not_le.2 c.utf8Size_pos)]
          exact ⟨rfl, rfl⟩
      | succ n =>
          rw [dropBytes?] at h
          split at h
          next hc =>
            obtain ⟨hs, hn⟩ := ih h
            rw [takeBytes, if_pos hc, List.cons_append, byteSize_cons, ← hs, hn]
            exact ⟨rfl, by omega⟩
          next => cases h

/-- At the boundaries, and only there, something is left to read or the end is reached. -/
theorem isSome_dropBytes?_iff : (dropBytes? text n).isSome = true ↔ IsBoundary text n := by
  constructor
  · intro h
    obtain ⟨t, ht⟩ := Option.isSome_iff_exists.1 h
    obtain ⟨hs, hn⟩ := eq_takeBytes_append_of_dropBytes? ht
    exact ⟨_, t, hs, hn⟩
  · rintro ⟨s, t, rfl, rfl⟩
    rw [dropBytes?_append]
    rfl

end Place

namespace Position

/-! Counting goes on from where it has come, and never back. -/

/-- A carriage return in front of what follows changes nothing, so characters count one by one. -/
theorem count_cons (lc : Nat × Nat) (d : Char) (s : List Char) :
    count lc (d :: s) = count (if d = '\n' then (lc.1 + 1, 1) else (lc.1, lc.2 + 1)) s := by
  obtain ⟨l, c⟩ := lc
  split
  next hd => rw [hd, count_lineFeed]
  next hd => rw [count_other hd]

theorem count_count (lc : Nat × Nat) (s t : List Char) : count lc (s ++ t) = count (count lc s) t := by
  induction s generalizing lc with
  | nil => rfl
  | cons d s ih => rw [List.cons_append, count_cons, ih, ← count_cons]

theorem toLex_le_count (lc : Nat × Nat) (s : List Char) : toLex lc ≤ toLex (count lc s) := by
  induction s generalizing lc with
  | nil => exact le_rfl
  | cons d s ih =>
      rw [count_cons]
      refine le_trans ?_ (ih _)
      rw [Prod.Lex.toLex_le_toLex]
      split
      · exact Or.inl (Nat.lt_succ_self _)
      · exact Or.inr ⟨rfl, Nat.le_succ _⟩

theorem count_of_not_mem (h : '\n' ∉ s) : count lc s = (lc.1, lc.2 + s.length) := by
  have hcount := count_append (s := []) (l := lc.1) (c := lc.2) h
  rwa [List.append_nil] at hcount

theorem lt_count_of_mem (lc : Nat × Nat) (h : '\n' ∈ s) : lc.1 < (count lc s).1 := by
  obtain ⟨front, rest, rfl, hfront⟩ := List.eq_append_cons_of_mem h
  have hle := toLex_le_count (lc.1 + 1, 1) rest
  rw [Prod.Lex.toLex_le_toLex] at hle
  rw [count_count, count_of_not_mem hfront, count_cons, if_pos rfl]
  have hline : lc.1 + 1 ≤ (count (lc.1 + 1, 1) rest).1 := hle.elim Nat.le_of_lt fun h => Nat.le_of_eq h.1
  exact hline

/-! The position at an offset. -/

/-- Line and column are those behind the characters. -/
def Counted (before : List Char) (p : Position) : Prop := Marks before ⟨byteSize before, p.line, p.column⟩

theorem ofOffset_min (text : List Char) (o : Nat) : ofOffset text (min o (byteSize text)) = ofOffset text o := by
  rw [ofOffset, ofOffset, Nat.min_assoc, Nat.min_self]

theorem ofOffset_of_isBoundary (h : IsBoundary text o) :
    ofOffset text o = ⟨o, (count (1, 1) (takeBytes text o)).1, (count (1, 1) (takeBytes text o)).2⟩ := by
  obtain ⟨s, t, rfl, rfl⟩ := h
  rw [takeBytes_append, ofOffset_append]

/-- Inside a character the lines are forgotten. -/
theorem ofOffset_of_not_isBoundary (h : ¬ IsBoundary text (min o (byteSize text))) :
    ofOffset text o = ⟨min o (byteSize text), 1, (takeBytes text (min o (byteSize text))).length + 1⟩ := by
  have hnone : (dropBytes? text (min o (byteSize text))).isSome = false := by
    rw [← Bool.not_eq_true, isSome_dropBytes?_iff]
    exact h
  simp only [ofOffset, hnone, Bool.false_eq_true, if_false]

theorem counted_of_line_one (hl : p.line = 1) (hc : p.column = before.length + 1) :
    Counted before p ↔ '\n' ∉ before := by
  constructor
  · intro h
    obtain ⟨n, ended, line, hs, hn, hline, hp, -⟩ := h.lines
    obtain rfl : n = 0 := by
      have hp : p.line = 1 + n := hp
      omega
    cases hn
    rw [hs]
    exact hline
  · intro h
    exact ⟨rfl, 0, [], before, rfl, .nil, h, hl, hc.trans (Nat.add_comm _ _)⟩

/-- The position at an offset, where `before` are the characters up to the last boundary that is not above it: its
line and column are those behind them, except inside a character that has a line end somewhere before it. -/
structure Tells (text : List Char) (o : Nat) (before : List Char) : Prop where
  front : before <+: text
  greatest : IsGreatest {b | IsBoundary text b ∧ b ≤ min o (byteSize text)} (byteSize before)
  offset : (ofOffset text o).offset = min o (byteSize text)
  counted : Counted before (ofOffset text o) ↔ IsBoundary text (min o (byteSize text)) ∨ '\n' ∉ before
  inside : ¬ IsBoundary text (min o (byteSize text)) →
    (ofOffset text o).line = 1 ∧ (ofOffset text o).column = before.length + 1

theorem tells_ofOffset (text : List Char) (o : Nat) : Tells text o (takeBytes text (min o (byteSize text))) := by
  refine ⟨takeBytes_front _ _, isGreatest_takeBytes _ _, rfl, ?_, fun h => ?_⟩
  · by_cases h : IsBoundary text (min o (byteSize text))
    · refine iff_of_true ?_ (Or.inl h)
      obtain ⟨s, t, hst, hs⟩ := h
      have hmarks := marks_ofOffset s t
      rw [← ofOffset_min, Counted, ← hs, hst, takeBytes_append]
      exact ⟨rfl, hmarks.lines⟩
    · rw [ofOffset_of_not_isBoundary h, counted_of_line_one rfl rfl, or_iff_right h]
  · rw [ofOffset_of_not_isBoundary h]
    exact ⟨rfl, rfl⟩

/-! Later offsets. -/

/-- The characters before an offset, one line of them, are not more than those before a later one. -/
theorem one_line_le (hs : s <+: t) : toLex (1, s.length + 1) ≤ toLex (count (1, 1) t) := by
  rw [Prod.Lex.toLex_le_toLex]
  by_cases ht : '\n' ∈ t
  · have hlt := lt_count_of_mem (1, 1) ht
    exact Or.inl hlt
  · rw [count_of_not_mem ht]
    have hle := hs.length_le
    exact Or.inr ⟨rfl, by omega⟩

theorem line_pos (text : List Char) (o : Nat) : 0 < (ofOffset text o).line := by
  by_cases h : IsBoundary text (min o (byteSize text))
  · have hle := toLex_le_count (1, 1) (takeBytes text (min o (byteSize text)))
    rw [Prod.Lex.toLex_le_toLex] at hle
    rw [← ofOffset_min, ofOffset_of_isBoundary h]
    exact hle.elim Nat.zero_lt_of_lt fun h => Nat.le_of_eq h.1
  · rw [ofOffset_of_not_isBoundary h]
    exact Nat.one_pos

/-- On the first line, whether it is told rightly or not, the characters before are counted. -/
theorem column_of_line_one (h : (ofOffset text o).line = 1) :
    (ofOffset text o).column = (takeBytes text (min o (byteSize text))).length + 1 := by
  by_cases hb : IsBoundary text (min o (byteSize text))
  · rw [← ofOffset_min, ofOffset_of_isBoundary hb] at h ⊢
    have hmem : '\n' ∉ takeBytes text (min o (byteSize text)) := fun hm => (lt_count_of_mem _ hm).ne' h
    rw [count_of_not_mem hmem, Nat.add_comm]
  · rw [ofOffset_of_not_isBoundary hb]

theorem ofOffset_le_iff (text : List Char) (h : o ≤ o') :
    toLex ((ofOffset text o).line, (ofOffset text o).column) ≤
        toLex ((ofOffset text o').line, (ofOffset text o').column) ↔
      IsBoundary text (min o' (byteSize text)) ∨ (ofOffset text o).line = 1 := by
  have hpre := takeBytes_mono text (min_le_min_right (byteSize text) h)
  by_cases h' : IsBoundary text (min o' (byteSize text))
  · refine iff_of_true ?_ (Or.inl h')
    rw [← ofOffset_min text o', ofOffset_of_isBoundary h']
    by_cases hb : IsBoundary text (min o (byteSize text))
    · obtain ⟨rest, hrest⟩ := hpre
      rw [← ofOffset_min text o, ofOffset_of_isBoundary hb, ← hrest, count_count]
      exact toLex_le_count _ rest
    · rw [ofOffset_of_not_isBoundary hb]
      exact one_line_le hpre
  · rw [or_iff_right h', ofOffset_of_not_isBoundary h', Prod.Lex.toLex_le_toLex]
    have hpos := line_pos text o
    have hlen := hpre.length_le
    constructor
    · rintro (hlt | ⟨heq, -⟩)
      · have hlt : (ofOffset text o).line < 1 := hlt
        omega
      · exact heq
    · intro hone
      refine Or.inr ⟨hone, ?_⟩
      rw [column_of_line_one hone]
      exact Nat.succ_le_succ hlen

/-- At every offset the position tells the characters before it, and line and column do not go back from one offset
to a later one. Both fail inside a character behind a line end, and nowhere else. -/
theorem tells_and_advances (text : List Char) (h : o ≤ o') :
    (∃ before, Tells text o before) ∧
      (toLex ((ofOffset text o).line, (ofOffset text o).column) ≤
          toLex ((ofOffset text o').line, (ofOffset text o').column) ↔
        IsBoundary text (min o' (byteSize text)) ∨ (ofOffset text o).line = 1) :=
  ⟨⟨_, tells_ofOffset text o⟩, ofOffset_le_iff text h⟩

/-- From inside a character of the first line to beyond the end, over two line ends. -/
theorem tells_and_advances_lines : 1 ≤ 99 ∧ (∃ before, Tells "é\n\r\n€".toList 1 before) ∧
    toLex ((ofOffset "é\n\r\n€".toList 1).line, (ofOffset "é\n\r\n€".toList 1).column) ≤
      toLex ((ofOffset "é\n\r\n€".toList 99).line, (ofOffset "é\n\r\n€".toList 99).column) := by
  have h := tells_and_advances "é\n\r\n€".toList (show 1 ≤ 99 by decide)
  exact ⟨by decide, h.1, h.2.2 (Or.inr (by decide))⟩

/-- In the second byte of a character on the second line, the first line is told, before the place in front. -/
theorem inside_character_forgets_line :
    ofOffset "\né".toList 2 = ⟨2, 1, 2⟩ ∧ ¬ Counted ['\n'] (ofOffset "\né".toList 2) ∧
      ¬ toLex ((ofOffset "\né".toList 1).line, (ofOffset "\né".toList 1).column) ≤
        toLex ((ofOffset "\né".toList 2).line, (ofOffset "\né".toList 2).column) := by
  have hinside : ofOffset "\né".toList 2 = ⟨2, 1, 2⟩ := by decide
  have hfront : ofOffset "\né".toList 1 = ⟨1, 2, 1⟩ := by decide
  refine ⟨hinside, ?_, ?_⟩
  · rw [hinside, counted_of_line_one rfl rfl]
    decide
  · rw [hinside, hfront, Prod.Lex.toLex_le_toLex]
    decide

end Position

end SelectorSyntax.Text
