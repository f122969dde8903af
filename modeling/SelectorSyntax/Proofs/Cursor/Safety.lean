import SelectorSyntax.Proofs.Cursor.Brackets

namespace SelectorSyntax.Text

variable {s t v : List Char}

theorem Identifier.read_length (h : Identifier.read s = .ok (v, t)) : t.length < s.length :=
  Grammar.Rule.lawful_run.shorter rfl (Identifier.run_ident_of_read h)

theorem Quoted.read_length (h : Quoted.read s = some (v, t)) : t.length < s.length := by
  cases s with
  | nil => cases h
  | cons q r =>
      rw [Quoted.read] at h
      split at h
      · exact Nat.lt_succ_of_lt (Quoted.readBody_length h)
      · cases h

end SelectorSyntax.Text

namespace SelectorSyntax.Text.Cursor

open Place

variable {σ α : Type} {limit x : Nat} {input : List Char} {s t : List Char}

/-! What has been read ends further on. -/

/-- An answer that gives something ends at a place of the input, behind the offset where it was asked for. -/
def Forward (input : List Char) (x : Nat) (answer : Reader.Answer α) : Prop :=
  ∀ v next, answer = .ok (v, next) → IsBoundary input next ∧ x < next ∧ next ≤ byteSize input

theorem forward_error (input : List Char) (x : Nat) (e : LexicalError) :
    Forward input x (.error e : Reader.Answer α) := by
  rintro _ _ ⟨⟩

theorem forward_ok {y : Nat} (h : Ahead input x y) (a : α) : Forward input x (.ok (a, y)) := by
  rintro _ _ ⟨⟩
  exact ⟨h.2, h.1, h.le_size⟩

theorem forward_escape (input : List Char) (x : Nat) : Forward input x (Reader.escape input x) := by
  cases h : dropBytes? input (x + 1) with
  | none =>
      rw [reader_escape_of_no_place h]
      exact forward_error input x _
  | some s =>
      rw [reader_escape_of_place h]
      cases hr : Escape.read s with
      | none => exact forward_error input x _
      | some y =>
          have hahead := ahead_of_suffix h (Escape.read_suffix hr) (Escape.read_length hr)
          exact forward_ok ⟨Nat.lt_of_succ_lt hahead.1, hahead.2⟩ y.1

theorem forward_quoted (input : List Char) (x : Nat) : Forward input x (Reader.quoted input x) := by
  cases h : dropBytes? input x with
  | none =>
      rw [reader_quoted_of_no_place h]
      exact forward_error input x _
  | some s =>
      rw [reader_quoted_of_place h]
      cases hr : Quoted.read s with
      | none => exact forward_error input x _
      | some y => exact forward_ok (ahead_of_suffix h (Quoted.read_suffix hr) (Quoted.read_length hr)) y.1

theorem forward_identifier (h : dropBytes? input x = some s) : Forward input x (answer input (Identifier.read s)) := by
  have hwithin := Identifier.within_read s
  rcases hr : Identifier.read s with (p | p) | ⟨v, t⟩
  · exact forward_error input x _
  · exact forward_error input x _
  · rw [hr] at hwithin
    exact forward_ok (ahead_of_suffix h hwithin (Identifier.read_length hr)) v

/-! All together. -/

/-- A program over offsets is not broken off and comes to the answer of a reader, which goes forward. -/
structure Reads (input : List Char) (x : Nat) (run : Run (Reader.Answer α)) (answer : Reader.Answer α) : Prop where
  answers : run = pure answer
  forward : Forward input x answer

/-- Every round of a loop goes forward, so that the loop ends, whatever the state it begins in. -/
structure Ends (input : List Char) (cursor : σ → Nat) (round : σ → Run (Turn σ α)) : Prop where
  advances : Advances input cursor round
  ends : ∀ s, ∃ a, loop round s = pure a

theorem Advances.ends {cursor : σ → Nat} {round : σ → Run (Turn σ α)} (h : Advances input cursor round) :
    Ends input cursor round :=
  ⟨h, h.exists_loop⟩

/-- All programs over the offsets of a text, each started at `x` except for the scan of its brackets. An identifier is
read at the places of the text; elsewhere the first slice fails. -/
structure InBounds (limit : Nat) (input : List Char) (x : Nat) : Prop where
  validity : isValidEscape limit input x = pure (Reader.isValidEscape input x)
  blanks : skipBlank limit input x = pure (Reader.skipBlank input x)
  escapes : Reads input x (escape limit input x) (Reader.escape input x)
  quotes : Reads input x (quoted limit input x) (Reader.quoted input x)
  names : IsBoundary input x → ∃ answer, Reader.identifier? input x = some answer ∧
    Reads input x (identifier limit input x) answer
  nowhere : ¬ IsBoundary input x →
    identifier limit input x = throw (if byteSize input < x then .outside else .inside)
  brackets : ∀ maxDepth, scan limit input maxDepth = pure (Bracket.scan input maxDepth)
  blankRounds : Ends input id (blankRound limit input)
  nameRounds : Ends input Progress.cursor (identifierRound limit input)
  quoteRounds : ∀ start q, Ends input Progress.cursor (quotedRound limit input start q)
  bracketRounds : ∀ maxDepth, Ends input Scanned.cursor (scanRound limit input maxDepth)

/-- As long as offsets up to the end of the text and the one behind `x` are numbers of the machine, no program takes a
slice from outside of the text or from inside a character, except for an identifier that is asked for off the places of the
text. What has been read ends further on, and all loops go forward and end. -/
theorem readers_stay_in_bounds (hinput : byteSize input ≤ limit) (hx : x < limit) : InBounds limit input x where
  validity := isValidEscape_eq hx
  blanks := skipBlank_eq hinput x
  escapes := ⟨escape_eq hinput hx, forward_escape input x⟩
  quotes := ⟨quoted_eq hinput x, forward_quoted input x⟩
  names hboundary := by
    obtain ⟨s, hs⟩ := Option.isSome_iff_exists.1 (isSome_dropBytes?_iff.2 hboundary)
    exact ⟨_, identifier?_of_place hs, identifier_of_place hinput hs, forward_identifier hs⟩
  nowhere hboundary := by
    rw [← isSome_dropBytes?_iff, Option.not_isSome_iff_eq_none] at hboundary
    exact identifier_of_no_place hboundary
  brackets := scan_eq hinput
  blankRounds := (advances_blankRound hinput).ends
  nameRounds := (advances_identifierRound hinput).ends
  quoteRounds start q := (advances_quotedRound hinput start q).ends
  bracketRounds maxDepth := (advances_scanRound hinput maxDepth).ends

/-- From inside a character, in a text that goes up to the largest offset there is, an escape is read with its two
digits and the line end behind them. -/
theorem readers_stay_in_bounds_inside : byteSize "é41\r\n".toList ≤ 6 ∧ 1 < 6 ∧
    escape 6 "é41\r\n".toList 1 = pure (.ok ('A', 6)) ∧ IsBoundary "é41\r\n".toList 6 := by
  have hinput : byteSize "é41\r\n".toList ≤ 6 := by decide
  have hread : Reader.escape "é41\r\n".toList 1 = .ok ('A', 6) := by decide
  have hescape := (readers_stay_in_bounds hinput (show 1 < 6 by decide)).escapes
  exact ⟨hinput, by decide, hread ▸ hescape.answers, (hescape.forward _ _ hread).1⟩

end SelectorSyntax.Text.Cursor
