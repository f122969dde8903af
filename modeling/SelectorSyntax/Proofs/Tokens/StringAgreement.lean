import Mathlib
import SelectorSyntax.Proofs.Tokens.QuotedReading

namespace SelectorSyntax.Text.Quoted

open Grammar CharClass

/-- The string token and the reader take the same text, unless an escape of digits ends with a newline:
the reader counts that newline to the escape, and to the token it is a newline inside the string. -/
theorem run_string_iff_read {s t : List Char} :
    (∃ ns, Rule.string.run s = some (t, ns)) ↔
      ∃ v, read s = some (v, t) ∧ NoNewlineAfterHex (Place.between s t) := by
  constructor
  · rintro ⟨ns, h⟩
    obtain ⟨q, r, hq, rfl, hi, -⟩ := run_string_eq_some.1 h
    obtain ⟨v, hv⟩ := readBody_of_iterates hq hi
    obtain ⟨w, rfl⟩ := readBody_suffix hv
    refine ⟨v, by rw [read, if_pos hq, hv], ?_⟩
    rw [← List.cons_append, Place.between_append]
    refine (noNewlineAfterHex_of_iterates hq hi rfl rfl).cons fun n r hr hh => ?_
    rcases isQuote_cases hq with rfl | rfl <;> cases hh
  · rintro ⟨v, hv, hn⟩
    cases s with
    | nil => cases hv
    | cons q r =>
        rw [read] at hv
        split at hv
        next hq =>
          obtain ⟨w, rfl⟩ := readBody_suffix hv
          rw [← List.cons_append, Place.between_append] at hn
          have hi := iterates_of_readBody hq hv rfl (NoNewlineAfterHex.right (w := [q]) hn)
          exact ⟨_, run_string_eq_some.2 ⟨q, _, hq, rfl, hi, rfl⟩⟩
        next => cases hv

theorem read_suffix {s t v : List Char} (h : read s = some (v, t)) : t <:+ s := by
  cases s with
  | nil => cases h
  | cons q r =>
      rw [read] at h
      split at h
      next => exact (readBody_suffix h).trans (List.suffix_cons q r)
      next => cases h

theorem read_append {w t v : List Char} (h : read (w ++ t) = some (v, t)) (k : List Char) :
    read (w ++ k) = some (v, k) := by
  cases w with
  | nil =>
      obtain ⟨x, hx⟩ : ∃ x, read t = some (x, t) := ⟨v, h⟩
      cases t with
      | nil => cases hx
      | cons c t =>
          rw [read] at hx
          split at hx
          next => exact absurd (readBody_length hx) (by simp)
          next => cases hx
  | cons q w =>
      rw [List.cons_append, read] at h ⊢
      split at h
      next hq =>
        rw [if_pos hq]
        exact readBody_append h k
      next => cases h

end SelectorSyntax.Text.Quoted

namespace SelectorSyntax.Text.Reader

open Grammar Place

theorem restAt_append (s t : List Char) : restAt (s ++ t) (byteSize s) = t := by
  rw [restAt, dropBytes?_append, Option.getD_some]

theorem quoted_eq_ok {before s v : List Char} {e : Nat} :
    quoted (before ++ s) (byteSize before) = .ok (v, e) ↔
      ∃ t, Quoted.read s = some (v, t) ∧ offsetOf (before ++ s) t = e := by
  rw [quoted, restAt_append]
  cases hr : Quoted.read s with
  | none => simp
  | some x =>
      obtain ⟨w, t⟩ := x
      obtain ⟨y, rfl⟩ := Quoted.read_suffix hr
      have ho : offsetOf (before ++ (y ++ t)) t = advance (byteSize before) (y ++ t) t := by
        rw [← List.append_assoc, offsetOf_append, advance, offsetOf_append, byteSize_append]
      simp only [← ho, Except.ok.injEq, Prod.mk.injEq, Option.some.injEq]
      constructor
      · rintro ⟨rfl, he⟩
        exact ⟨t, ⟨rfl, rfl⟩, he⟩
      · rintro ⟨t', ⟨rfl, rfl⟩, he⟩
        exact ⟨rfl, he⟩

/-- At every place of an input, the string token matches up to an offset exactly where the reader of
quoted text reads up to it, as long as no escape of digits in between ends with a newline. -/
theorem string_matches_iff_quoted (before s : List Char) (e : Nat) :
    (∃ t ns, Rule.string.run s = some (t, ns) ∧ offsetOf (before ++ s) t = e) ↔
      (∃ v, quoted (before ++ s) (byteSize before) = .ok (v, e)) ∧
        Quoted.NoNewlineAfterHex (between s (restAt (before ++ s) e)) := by
  have hrest {t : List Char} (ht : t <:+ s) (he : offsetOf (before ++ s) t = e) : restAt (before ++ s) e = t := by
    obtain ⟨w, rfl⟩ := ht
    rw [← he, ← List.append_assoc, offsetOf_append, restAt_append]
  constructor
  · rintro ⟨t, ns, hr, he⟩
    obtain ⟨v, hv, hn⟩ := Quoted.run_string_iff_read.1 ⟨ns, hr⟩
    exact ⟨⟨v, quoted_eq_ok.2 ⟨t, hv, he⟩⟩, by rwa [hrest (Quoted.read_suffix hv) he]⟩
  · rintro ⟨⟨v, hv⟩, hn⟩
    obtain ⟨t, ht, he⟩ := quoted_eq_ok.1 hv
    rw [hrest (Quoted.read_suffix ht) he] at hn
    obtain ⟨ns, hr⟩ := Quoted.run_string_iff_read.2 ⟨v, ht, hn⟩
    exact ⟨t, ns, hr, he⟩

/-- The condition is needed: the reader takes the newline to the escape before it, the token does not. -/
theorem string_fails_at_newline_after_hex :
    ¬ ∀ (before s : List Char) (e : Nat),
      (∃ t ns, Rule.string.run s = some (t, ns) ∧ offsetOf (before ++ s) t = e) ↔
        ∃ v, quoted (before ++ s) (byteSize before) = .ok (v, e) := by
  intro h
  have hread : quoted "\"\\41\n\"".toList 0 = .ok (['A'], 6) := by cbv
  have hrun : Rule.string.run "\"\\41\n\"".toList = none := by rfl
  obtain ⟨t, ns, hr, -⟩ := (h [] "\"\\41\n\"".toList 6).2 ⟨['A'], hread⟩
  rw [hrun] at hr
  cases hr

end SelectorSyntax.Text.Reader
