import SelectorSyntax.Proofs.Tokens.Escape
import SelectorSyntax.Text.Reader

namespace SelectorSyntax.Grammar

open Expression Text CharClass

variable {rules : Rule → Matcher} {q : Char} {s t u : List Char} {ns : List Node}

/-- One round of the body of a quoted text. -/
def quotedPiece (q : Char) : Expression :=
  choice stringEscape (butNot (choices [exactly q, exactly '\\', newline]))

/-- A character that stands for itself between quotes. -/
def Plain (q c : Char) : Prop := c ≠ q ∧ c ≠ '\\' ∧ isNewline c = false

theorem run_newline_eq_none : newline.run rules s = none ↔ ∀ c r, s = c :: r → isNewline c = false := by
  rw [newline, oneOf, run_char_eq_none]
  simp [isNewline, and_assoc]

theorem run_quotedPiece_plain {c : Char} (hc : Plain q c) :
    (quotedPiece q).run rules (c :: s) = some (s, []) := by
  obtain ⟨hq, hb, hn⟩ := hc
  refine run_choice_eq_some.2 (Or.inr ⟨?_, run_butNot_eq_some.2 ⟨?_, ⟨c, rfl⟩, rfl⟩⟩)
  · exact run_seq_eq_none.2 (Or.inl (run_exactly_eq_none.2 (by simpa using hb)))
  · simp only [choices_cons_cons, choices_singleton, run_choice_eq_none, run_exactly_eq_none, run_newline_eq_none]
    refine ⟨by simpa using hq, by simpa using hb, ?_⟩
    intro d r hd
    cases hd
    exact hn

/-- A backslash takes the next character with it, and a carriage return its line feed. -/
theorem run_quotedPiece_backslash (q : Char) (s : List Char) :
    (quotedPiece q).run rules ('\\' :: s) =
      match s with
      | [] => none
      | '\r' :: '\n' :: r => some (r, [])
      | _ :: r => some (r, []) := by
  have hother : (butNot (choices [exactly q, exactly '\\', newline])).run rules ('\\' :: s) = none := by
    rw [butNot, run_seq_eq_none]
    refine Or.inl (run_absent_eq_none.2 ?_)
    by_cases hq : q = '\\'
    · subst hq
      exact ⟨(s, []), run_choice_eq_some.2 (Or.inl (run_exactly_cons _))⟩
    · exact ⟨(s, []), run_choice_eq_some.2 (Or.inr ⟨run_exactly_eq_none.2 (by simpa using Ne.symm hq),
        run_choice_eq_some.2 (Or.inl (run_exactly_cons _))⟩)⟩
  rw [quotedPiece, run_choice_of_none_right hother, stringEscape, run_seq_of_run (run_exactly_cons _)]
  split
  next => rfl
  next r => rfl
  next c r hcr =>
    have hl : (literal "\r\n").run rules (c :: r) = none := by
      rw [run_literal_eq_none]
      rintro ⟨v, hv⟩
      exact hcr v (List.cons.inj hv).1.symm (List.cons.inj hv).2.symm
    rw [run_choice, hl]
    rfl

/-- Neither the closing quote nor a newline is part of the body, nor is the end of the text. -/
theorem run_quotedPiece_eq_none {c : Char} (hb : c ≠ '\\') (hc : c = q ∨ isNewline c = true) :
    (quotedPiece q).run rules (c :: s) = none := by
  refine run_choice_eq_none.2 ⟨run_seq_eq_none.2 (Or.inl (run_exactly_eq_none.2 (by simpa using hb))), ?_⟩
  rw [butNot, run_seq_eq_none]
  refine Or.inl (run_absent_eq_none.2 ?_)
  by_cases hq : c = q
  · subst hq
    exact ⟨(s, []), run_choice_eq_some.2 (Or.inl (run_exactly_cons _))⟩
  · have hn := hc.resolve_left hq
    refine ⟨(s, []), run_choice_eq_some.2 (Or.inr ⟨run_exactly_eq_none.2 (by simpa using hq), ?_⟩)⟩
    refine run_choice_eq_some.2 (Or.inr ⟨run_exactly_eq_none.2 (by simpa using hb), ?_⟩)
    refine run_char_eq_some.2 ⟨c, ?_, rfl, rfl⟩
    simpa [isNewline, or_assoc] using hn

/-- A round takes a character that stands for itself, or a backslash and what goes with it. -/
theorem run_quotedPiece_cases (h : (quotedPiece q).run rules s = some (t, ns)) :
    (∃ c, Plain q c ∧ s = c :: t) ∨ (∃ c, s = '\\' :: c :: t) ∨ s = '\\' :: '\r' :: '\n' :: t := by
  cases s with
  | nil => cases h
  | cons c s =>
      by_cases hb : c = '\\'
      · subst hb
        rw [run_quotedPiece_backslash] at h
        split at h
        next => cases h
        next r =>
          cases h
          exact Or.inr (Or.inr rfl)
        next d r _ =>
          cases h
          exact Or.inr (Or.inl ⟨d, rfl⟩)
      · by_cases hc : c = q ∨ isNewline c = true
        · rw [run_quotedPiece_eq_none hb hc] at h
          cases h
        · obtain ⟨hq, hn⟩ := not_or.1 hc
          have hp : Plain q c := ⟨hq, hb, by simpa using hn⟩
          rw [run_quotedPiece_plain hp] at h
          cases h
          exact Or.inl ⟨c, hp, rfl⟩

theorem quotedPiece_callFree (q : Char) : (quotedPiece q).callFree = true := rfl

theorem quotedPiece_takes (q : Char) : (quotedPiece q).takes = true := rfl

/-- The rounds of a quoted body pass over characters that stand for themselves. -/
theorem iterates_plain_append {w : List Char} (hw : ∀ c ∈ w, Plain q c) :
    Iterates ((quotedPiece q).run rules) (w ++ s) t ns ↔ Iterates ((quotedPiece q).run rules) s t ns := by
  induction w with
  | nil => rfl
  | cons c w ih =>
      have hc : (quotedPiece q).run rules (c :: (w ++ s)) = some (w ++ s, []) :=
        run_quotedPiece_plain (hw c List.mem_cons_self)
      have ih := ih fun d hd => hw d (List.mem_cons_of_mem c hd)
      constructor
      · intro h
        cases h with
        | stop hs => rw [List.cons_append, hc] at hs; cases hs
        | next hs h =>
            rw [List.cons_append, hc] at hs
            cases hs
            exact ih.1 h
      · intro h
        exact Iterates.next hc (ih.2 h)

theorem isQuote_cases (hq : isQuote q = true) : q = '"' ∨ q = '\'' := by
  simpa [isQuote] using hq

theorem run_quoted_eq_some : (quoted q).run Rule.run s = some (t, ns) ↔
    ∃ r, s = q :: r ∧ Iterates ((quotedPiece q).run Rule.run) r (q :: t) [] ∧ ns = [] := by
  change (seqs [exactly q, star (quotedPiece q), exactly q]).run Rule.run s = some (t, ns) ↔ _
  simp only [seqs_cons_cons, seqs_singleton, run_seq_eq_some, run_exactly_eq_some,
    run_star_eq_some Rule.lawful_run (quotedPiece_takes q)]
  constructor
  · rintro ⟨r, ms, ks, ⟨rfl, rfl⟩, ⟨v, ms', ks', hi, ⟨rfl, rfl⟩, rfl⟩, rfl⟩
    have hn : ms' = [] := run_callFree (e := star (quotedPiece q)) (quotedPiece_callFree q)
      ((run_star_eq_some Rule.lawful_run (quotedPiece_takes q)).2 hi)
    subst hn
    exact ⟨r, rfl, hi, rfl⟩
  · rintro ⟨r, rfl, hi, rfl⟩
    exact ⟨r, [], [], ⟨rfl, rfl⟩, ⟨q :: t, [], [], hi, ⟨rfl, rfl⟩, rfl⟩, rfl⟩

/-- A string is a quote, the rounds of its body, and the same quote. -/
theorem run_string_eq_some : Rule.string.run s = some (t, ns) ↔
    ∃ q r, isQuote q = true ∧ s = q :: r ∧ Iterates ((quotedPiece q).run Rule.run) r (q :: t) [] ∧
      ns = [⟨.string, s, t, []⟩] := by
  rw [Rule.run_node rfl]
  change (∃ ms, (choice (quoted '"') (quoted '\'')).run Rule.run s = some (t, ms) ∧ ns = [⟨.string, s, t, []⟩]) ↔ _
  simp only [run_choice_eq_some]
  constructor
  · rintro ⟨ms, h | ⟨-, h⟩, rfl⟩
    · obtain ⟨r, rfl, hi, -⟩ := run_quoted_eq_some.1 h
      exact ⟨'"', r, rfl, rfl, hi, rfl⟩
    · obtain ⟨r, rfl, hi, -⟩ := run_quoted_eq_some.1 h
      exact ⟨'\'', r, rfl, rfl, hi, rfl⟩
  · rintro ⟨q, r, hq, rfl, hi, rfl⟩
    rcases isQuote_cases hq with rfl | rfl
    · exact ⟨[], Or.inl (run_quoted_eq_some.2 ⟨r, rfl, hi, rfl⟩), rfl⟩
    · refine ⟨[], Or.inr ⟨?_, run_quoted_eq_some.2 ⟨r, rfl, hi, rfl⟩⟩, rfl⟩
      exact run_seq_eq_none.2 (Or.inl (run_exactly_eq_none.2 (by simp)))

end SelectorSyntax.Grammar
