import Mathlib
import SelectorSyntax.Proofs.Spelling.NthText

namespace SelectorSyntax.Selector.Spelling

open Grammar Text CharClass

variable {t : List Char}

/-! The uniform spelling. -/

theorem isWhitespace_of_isAlpha {c : Char} (hc : c.isAlpha = true) : isWhitespace c = false :=
  isWhitespace_eq_false (not_mem_of (p := Char.isAlpha) rfl hc)

theorem isWhitespace_toLower (c : Char) : isWhitespace c.toLower = isWhitespace c := by
  by_cases hc : c.isUpper = true
  · have ha : c.isAlpha = true := by simp [Char.isAlpha, hc]
    rw [isWhitespace_of_isAlpha ha, isWhitespace_of_isAlpha ((Char.isAlpha_toLower_eq_isAlpha c).trans ha)]
  · rw [Char.toLower_eq_of_not_isUpper hc]

theorem normalize_dense (t : List Char) : ∀ c ∈ AnPlusB.normalize t, isWhitespace c = false := by
  intro c hc
  obtain ⟨d, hd, rfl⟩ := List.mem_map.1 hc
  rw [isWhitespace_toLower]
  simpa using (List.mem_filter.1 hd).2

theorem foldCase_normalize (t : List Char) : AnPlusB.foldCase (AnPlusB.normalize t) = AnPlusB.normalize t := by
  simp [AnPlusB.normalize, AnPlusB.foldCase]

theorem normalize_normalize (t : List Char) :
    AnPlusB.normalize (AnPlusB.normalize t) = AnPlusB.normalize t := by
  have hf : (AnPlusB.normalize t).filter (fun c => !isWhitespace c) = AnPlusB.normalize t :=
    List.filter_eq_self.2 fun c hc => by simp [normalize_dense t c hc]
  nth_rewrite 1 [AnPlusB.normalize]
  rw [hf, foldCase_normalize]

theorem read_normalize (t : List Char) : AnPlusB.read (AnPlusB.normalize t) = AnPlusB.read t := by
  rw [AnPlusB.read, normalize_normalize, AnPlusB.read]

/-! The integers that are written out. -/

/-- An integer of what selects siblings by number: all that there is, the factor of `n`, or what is added. -/
inductive Contains : List Char → Int → Prop
  | integer {g ds} : Sign g → Digits ds → ds ≠ [] → Contains (g ++ ds) (signed g ds)
  | step {g ds n s} : Sign g → Digits ds → ds ≠ [] → n.toLower = 'n' → Contains (g ++ (ds ++ n :: s)) (signed g ds)
  | shift {g ds n w h u es} : Sign g → Digits ds → n.toLower = 'n' → (∀ c ∈ w, isWhitespace c = true) → Sign [h] →
      (∀ c ∈ u, isWhitespace c = true) → Digits es → es ≠ [] →
      Contains (g ++ (ds ++ n :: (w ++ h :: (u ++ es)))) (signed [h] es)

def Exceeds (t : List Char) : Prop := ∃ i, Contains t i ∧ AnPlusB.inRange i = false

theorem readInteger_eq_outOfRange {g ds : List Char} (hg : Sign g) (hds : Digits ds) (hne : ds ≠ []) :
    AnPlusB.readInteger (g ++ ds) = .error .outOfRange ↔ AnPlusB.inRange (signed g ds) = false := by
  rw [readInteger_digits hg hds hne]
  cases AnPlusB.inRange (signed g ds) <;> simp

theorem bind_eq_error {ε α β : Type} {x : Except ε α} {f : α → Except ε β} {e : ε} :
    (x >>= f) = .error e ↔ x = .error e ∨ ∃ a, x = .ok a ∧ f a = .error e := by
  cases x with
  | error d =>
      constructor
      · intro h
        cases h
        exact Or.inl rfl
      · rintro (h | ⟨a, h, -⟩)
        · cases h
          rfl
        · cases h
  | ok a =>
      constructor
      · exact fun h => Or.inr ⟨a, rfl, h⟩
      · rintro (h | ⟨b, hb, h⟩)
        · cases h
        · cases hb
          exact h

theorem read_of_contains {i : Int} (h : Contains t i) (hi : AnPlusB.inRange i = false) :
    AnPlusB.read t = .error .outOfRange := by
  cases h with
  | integer hg hds hne =>
      rw [read_integer hg hds, (readInteger_eq_outOfRange hg hds hne).2 hi]
      rfl
  | @step g ds n s hg hds hne hn =>
      rw [read_step hg hds hn, readStep_digits g hds hne, (readInteger_eq_outOfRange hg hds hne).2 hi]
      rfl
  | @shift g ds n w h u es hg hds hn hw hh hu hes hne =>
      have hshift : AnPlusB.readShift (h :: es) = .error .outOfRange := by
        rw [readShift_digits hh]
        exact (readInteger_eq_outOfRange hh hes hne).2 hi
      rw [read_step hg hds hn, normalize_shift hw hh hu hes, hshift, bind_eq_error]
      cases hstep : AnPlusB.readStep (g ++ ds) with
      | ok a => exact Or.inr ⟨a, rfl, rfl⟩
      | error e =>
          cases e with
          | invalid => exact absurd hstep (readStep_ne_invalid hg hds)
          | outOfRange => exact Or.inl rfl

theorem contains_of_step {g ds s : List Char} {n : Char} (hg : Sign g) (hds : Digits ds) (hn : n.toLower = 'n')
    (h : AnPlusB.readStep (g ++ ds) = .error .outOfRange) :
    Exceeds (g ++ (ds ++ n :: s)) := by
  by_cases hne : ds = []
  · obtain ⟨a, ha⟩ := readStep_sign hg
    rw [hne, List.append_nil, ha] at h
    cases h
  · rw [readStep_digits g hds hne] at h
    exact ⟨_, .step hg hds hne hn, (readInteger_eq_outOfRange hg hds hne).1 h⟩

/-- A number is out of range if and only if an integer is that is written in it. -/
theorem read_eq_outOfRange_iff (ht : Nth t) : AnPlusB.read t = .error .outOfRange ↔ Exceeds t := by
  refine ⟨fun h => ?_, fun ⟨i, hc, hi⟩ => read_of_contains hc hi⟩
  cases ht with
  | keyword hk =>
      obtain ⟨x, hx⟩ := read_keyword hk
      rw [hx] at h
      cases h
  | @integer g ds hg hds hne =>
      rw [read_integer hg hds] at h
      cases hr : AnPlusB.readInteger (g ++ ds) with
      | ok i =>
          rw [hr] at h
          cases h
      | error e =>
          rw [hr] at h
          cases h
          exact ⟨_, .integer hg hds hne, (readInteger_eq_outOfRange hg hds hne).1 hr⟩
  | @step g ds n hg hds hn =>
      rw [read_step hg hds hn, bind_eq_error] at h
      rcases h with h | ⟨a, -, h⟩
      · exact contains_of_step hg hds hn h
      · cases h
  | @shifted g ds n w h' u es hg hds hn hw hh hu hes hne =>
      rw [read_step hg hds hn, normalize_shift hw hh hu hes, bind_eq_error] at h
      rcases h with h | ⟨a, -, h⟩
      · exact contains_of_step hg hds hn h
      · rcases bind_eq_error.1 h with h | ⟨b, -, h⟩
        · rw [readShift_digits hh] at h
          exact ⟨_, .shift hg hds hn hw hh hu hes hne, (readInteger_eq_outOfRange hh hes hne).1 h⟩
        · cases h

end SelectorSyntax.Selector.Spelling
