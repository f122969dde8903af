import SelectorSyntax.Proofs.Spelling.NthRange

namespace SelectorSyntax.Selector.Spelling

open Grammar Text CharClass

variable {g ds t : List Char} {x : AnPlusB} {i : Int}

/-! What a number with `n` denotes, and how it is read. -/

/-- The integer of decimal digits behind a sign. -/
def numeral (g ds : List Char) : Int := if g = ['-'] then -(Nat.ofDigitChars 10 ds 0 : Int) else Nat.ofDigitChars 10 ds 0

/-- The factor of `n`, which is one where there are no digits. -/
def coefficient (g ds : List Char) : Int := numeral g (if ds = [] then ['1'] else ds)

inductive Denotes : List Char → AnPlusB → Prop
  | odd {t : List Char} : AnPlusB.foldCase t = "odd".toList → Denotes t ⟨2, 1⟩
  | even {t : List Char} : AnPlusB.foldCase t = "even".toList → Denotes t ⟨2, 0⟩
  | integer {g ds : List Char} : Sign g → Digits ds → ds ≠ [] → Denotes (g ++ ds) ⟨0, numeral g ds⟩
  | step {g ds : List Char} {n : Char} : Sign g → Digits ds → n.toLower = 'n' →
      Denotes (g ++ (ds ++ [n])) ⟨coefficient g ds, 0⟩
  | shifted {g ds w u es : List Char} {n h : Char} : Sign g → Digits ds → n.toLower = 'n' →
      (∀ c ∈ w, isWhitespace c = true) → Sign [h] → (∀ c ∈ u, isWhitespace c = true) → Digits es → es ≠ [] →
      Denotes (g ++ (ds ++ n :: (w ++ h :: (u ++ es)))) ⟨coefficient g ds, numeral [h] es⟩

theorem Nth.denotes (h : Nth t) : ∃ x, Denotes t x := by
  cases h with
  | keyword h =>
      simp only [List.mem_cons, List.not_mem_nil, or_false] at h
      rcases h with h | h
      · exact ⟨_, .odd h⟩
      · exact ⟨_, .even h⟩
  | integer hg hds hne => exact ⟨_, .integer hg hds hne⟩
  | step hg hds hn => exact ⟨_, .step hg hds hn⟩
  | shifted hg hds hn hw hh hu hes hne => exact ⟨_, .shifted hg hds hn hw hh hu hes hne⟩

theorem Denotes.nth (h : Denotes t x) : Nth t := by
  cases h with
  | odd h => exact .keyword (h ▸ List.mem_cons_self)
  | even h => exact .keyword (h ▸ List.mem_cons_of_mem _ List.mem_cons_self)
  | integer hg hds hne => exact .integer hg hds hne
  | step hg hds hn => exact .step hg hds hn
  | shifted hg hds hn hw hh hu hes hne => exact .shifted hg hds hn hw hh hu hes hne

/-- The integers of 32 bits with a sign. -/
def InBounds (i : Int) : Prop := -2 ^ 31 ≤ i ∧ i ≤ 2 ^ 31 - 1

instance (i : Int) : Decidable (InBounds i) := inferInstanceAs (Decidable (_ ∧ _))

def Fits (x : AnPlusB) : Prop := InBounds x.step ∧ InBounds x.shift

instance (x : AnPlusB) : Decidable (Fits x) := inferInstanceAs (Decidable (_ ∧ _))

theorem inRange_iff : AnPlusB.inRange i = true ↔ InBounds i := by
  rw [AnPlusB.inRange, InBounds, decide_eq_true_eq]
  omega

theorem signed_eq_numeral (g ds : List Char) : signed g ds = numeral g ds := rfl

/-- An integer, if it is in bounds. -/
def bounded (i : Int) : Except AnPlusB.Fault Int := if InBounds i then .ok i else .error .outOfRange

theorem bounded_of (hi : InBounds i) : bounded i = .ok i := if_pos hi

theorem bounded_of_not (hi : ¬ InBounds i) : bounded i = .error .outOfRange := if_neg hi

theorem readInteger_numeral (hg : Sign g) (hds : Digits ds) (hne : ds ≠ []) :
    AnPlusB.readInteger (g ++ ds) = bounded (numeral g ds) := by
  rw [readInteger_digits hg hds hne, signed_eq_numeral]
  by_cases hi : InBounds (numeral g ds)
  · rw [if_pos (inRange_iff.2 hi), bounded_of hi]
  · rw [if_neg (inRange_iff.not.2 hi), bounded_of_not hi]

theorem readStep_coefficient (hg : Sign g) (hds : Digits ds) :
    AnPlusB.readStep (g ++ ds) = bounded (coefficient g ds) := by
  by_cases hne : ds = []
  · subst hne
    cases hg <;> rfl
  · rw [readStep_digits g hds hne, readInteger_numeral hg hds hne, coefficient, if_neg hne]

theorem readShift_numeral {h : Char} (hh : Sign [h]) (hds : Digits ds) (hne : ds ≠ []) :
    AnPlusB.readShift (h :: ds) = bounded (numeral [h] ds) :=
  (readShift_digits hh).trans (readInteger_numeral hh hds hne)

theorem bounded_pair (a b : Int) : (bounded a >>= fun a => bounded b >>= fun b => .ok (⟨a, b⟩ : AnPlusB)) =
    if Fits ⟨a, b⟩ then .ok ⟨a, b⟩ else .error .outOfRange := by
  by_cases ha : InBounds a
  · by_cases hb : InBounds b
    · rw [bounded_of ha, bounded_of hb, if_pos ⟨ha, hb⟩]
      rfl
    · rw [bounded_of ha, bounded_of_not hb, if_neg fun h => hb h.2]
      rfl
  · rw [bounded_of_not ha, if_neg fun h => ha h.1]
    rfl

/-- A number is read as what it denotes, if that fits. -/
theorem Denotes.read (h : Denotes t x) :
    AnPlusB.read t = if Fits x then .ok x else .error .outOfRange := by
  cases h with
  | odd h =>
      rw [AnPlusB.read, normalize_keyword (h ▸ List.mem_cons_self), h]
      rfl
  | even h =>
      rw [AnPlusB.read, normalize_keyword (h ▸ List.mem_cons_of_mem _ List.mem_cons_self), h]
      rfl
  | @integer g ds hg hds hne =>
      rw [read_integer hg hds, readInteger_numeral hg hds hne, ← bounded_pair]
      rfl
  | @step g ds n hg hds hn =>
      rw [read_step hg hds hn, readStep_coefficient hg hds, ← bounded_pair]
      rfl
  | shifted hg hds hn hw hh hu hes hne =>
      rw [read_step hg hds hn, normalize_shift hw hh hu hes, readStep_coefficient hg hds,
        readShift_numeral hh hes hne, bounded_pair]

end SelectorSyntax.Selector.Spelling
