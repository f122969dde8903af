import Mathlib
import SelectorSyntax.Proofs.Tokens.Escape

namespace SelectorSyntax.Text.Escape

open CharClass

variable {c : Char} {e k s w : List Char}

/-! The code of a character is read back as the character. -/

theorem hexValue?_digitChar : ∀ d < 16, hexValue? (Nat.digitChar d) = some d := by decide

theorem exists_digitChar (n : Nat) : ∀ c ∈ Nat.toDigits 16 n, ∃ d < 16, c = Nat.digitChar d := by
  induction n using Nat.strongRecOn with
  | ind n ih =>
      intro c hc
      rw [Nat.toDigits_eq_if (by decide)] at hc
      split at hc
      next hn => exact ⟨n, hn, List.mem_singleton.1 hc⟩
      next hn =>
        rcases List.mem_append.1 hc with hc | hc
        · exact ih (n / 16) (by omega) c hc
        · exact ⟨n % 16, Nat.mod_lt n (by decide), List.mem_singleton.1 hc⟩

theorem hex_toDigits (n : Nat) : ∀ c ∈ Nat.toDigits 16 n, isHexDigit c = true := by
  intro c hc
  obtain ⟨d, hd, rfl⟩ := exists_digitChar n c hc
  rw [isHexDigit, hexValue?_digitChar d hd]
  rfl

theorem map_toLower_toDigits (n : Nat) : (Nat.toDigits 16 n).map Char.toLower = Nat.toDigits 16 n := by
  have hlower : ∀ d < 16, (Nat.digitChar d).toLower = Nat.digitChar d := by decide
  refine (List.map_congr_left fun c hc => ?_).trans (List.map_id _)
  obtain ⟨d, hd, rfl⟩ := exists_digitChar n c hc
  exact hlower d hd

theorem value_toDigits (n : Nat) : value (Nat.toDigits 16 n) = n := by
  induction n using Nat.strongRecOn with
  | ind n ih =>
      rw [Nat.toDigits_eq_if (by decide)]
      split
      next hn =>
        rw [value, List.foldl_cons, List.foldl_nil, hexValue?_digitChar n hn]
        simp
      next hn =>
        have hmod := hexValue?_digitChar (n % 16) (Nat.mod_lt n (by decide))
        have hdiv := ih (n / 16) (by omega)
        rw [value] at hdiv
        rw [value, List.foldl_append, hdiv, List.foldl_cons, List.foldl_nil, hmod, Option.getD_some]
        omega

theorem ofCode_toNat (hc : c ≠ '\x00') : ofCode c.toNat = c := by
  have hne : c.toNat ≠ 0 := by
    intro h
    apply hc
    exact (Char.ofNat_toNat c).symm.trans (congrArg Char.ofNat h)
  rw [ofCode, if_neg]
  · exact Char.ofNat_toNat c
  · rintro (h | h)
    · exact hne h
    · exact h c.valid

/-! Neither case nor zeros in front change what digits stand for. -/

theorem hexValue?_toLower (c : Char) : hexValue? c.toLower = hexValue? c := by
  by_cases hc : c.isUpper = true
  · have hall : ∀ n < 91, 65 ≤ n → hexValue? (Char.ofNat n).toLower = hexValue? (Char.ofNat n) := by decide
    obtain ⟨hl, hu⟩ : 65 ≤ c.toNat ∧ c.toNat ≤ 90 := by
      simpa [Char.isUpper, UInt32.le_iff_toNat_le] using hc
    simpa using hall c.toNat (by omega) hl
  · rw [Char.toLower_eq_of_not_isUpper hc]

theorem value_zeros (n : Nat) (s : List Char) : value (List.replicate n '0' ++ s) = value s := by
  induction n with
  | zero => rfl
  | succ n ih => exact ih

theorem value_toLower (s : List Char) : value (s.map Char.toLower) = value s := by
  simp only [value, List.foldl_map, hexValue?_toLower]

/-- Digits of either case that name a character: its code, with as many zeros in front as there is room for. -/
structure Names (c : Char) (digits : List Char) : Prop where
  nonzero : c ≠ '\x00'
  short : digits.length ≤ 6
  code : ∃ n, digits.map Char.toLower = List.replicate n '0' ++ Nat.toDigits 16 c.toNat

theorem Names.value_eq (h : Names c s) : value s = c.toNat := by
  obtain ⟨n, hn⟩ := h.code
  rw [← value_toLower, hn, value_zeros, value_toDigits]

theorem Names.hex (h : Names c s) : ∀ d ∈ s, isHexDigit d = true := by
  obtain ⟨n, hn⟩ := h.code
  intro d hd
  have hm : d.toLower ∈ List.replicate n '0' ++ Nat.toDigits 16 c.toNat := hn ▸ List.mem_map_of_mem hd
  rw [isHexDigit, ← hexValue?_toLower]
  rcases List.mem_append.1 hm with hm | hm
  · rw [List.eq_of_mem_replicate hm]
    rfl
  · exact hex_toDigits _ _ hm

theorem Names.ne_nil (h : Names c s) : s ≠ [] := by
  rintro rfl
  obtain ⟨n, hn⟩ := h.code
  exact Nat.toDigits_ne_nil (List.append_eq_nil_iff.1 hn.symm).2

/-- The code without zeros fits. -/
theorem names_toDigits (hc : c ≠ '\x00') : Names c (Nat.toDigits 16 c.toNat) := by
  refine ⟨hc, ?_, 0, ?_⟩
  · rw [Nat.length_toDigits_le_iff (by decide) (by decide)]
    have hv := c.valid
    simp only [UInt32.isValidChar, Nat.isValidChar] at hv
    have h : c.toNat = c.val.toNat := rfl
    omega
  · exact map_toLower_toDigits _

/-! What ends the digits. -/

/-- The whitespace that may end the digits of an escape. -/
def endings : List (List Char) := [[' '], ['\t'], ['\n'], ['\x0c'], ['\r'], ['\r', '\n']]

/-- Only a carriage return could take more than was meant to end the digits. -/
theorem dropTerminator_ending (he : e ∈ endings) (hk : e = ['\r'] → k.head? ≠ some '\n') :
    dropTerminator (e ++ k) = k := by
  simp only [endings, List.mem_cons, List.not_mem_nil, or_false] at he
  rcases he with rfl | rfl | rfl | rfl | rfl | rfl
  · rfl
  · rfl
  · rfl
  · rfl
  · refine (dropTerminator_eq_tail rfl).2 ?_
    rintro v - rfl
    exact hk rfl rfl
  · rfl

theorem ending_head (he : e ∈ endings) : ∀ c r, e ++ k = c :: r → isHexDigit c = false := by
  simp only [endings, List.mem_cons, List.not_mem_nil, or_false] at he
  rintro c r h
  rcases he with rfl | rfl | rfl | rfl | rfl | rfl <;> cases h <;> rfl

theorem Names.read (h : Names c s) (he : e ∈ endings) (hk : e = ['\r'] → k.head? ≠ some '\n') :
    read (s ++ (e ++ k)) = some (c, k) := by
  rw [read_digits h.ne_nil h.hex h.short (Or.inr (ending_head he)), h.value_eq, ofCode_toNat h.nonzero,
    dropTerminator_ending he hk]

/-- The ways to write a character: as it is, if it is `plain`, behind a backslash, or by its code and one of `ends`. -/
inductive Written (plain : Char → Prop) (ends : List (List Char)) : Char → List Char → Prop
  | itself {c : Char} : plain c → Written plain ends c [c]
  | escaped {c : Char} : isHexDigit c = false → isNewline c = false → Written plain ends c ['\\', c]
  | code {c : Char} {s e : List Char} : Names c s → e ∈ ends → Written plain ends c ('\\' :: (s ++ e))

variable {plain : Char → Prop} {ends : List (List Char)}

/-- What is written for a character stands for itself, or it is read as an escape of that character. -/
theorem Written.read (h : Written plain ends c w) (hends : ends ⊆ endings) :
    plain c ∧ w = [c] ∨ ∃ d r, w = '\\' :: d :: r ∧ isNewline d = false ∧
      ∀ k : List Char, (['\r'] ∈ ends → k.head? ≠ some '\n') → read (d :: r ++ k) = some (c, k) := by
  cases h with
  | itself hc => exact Or.inl ⟨hc, rfl⟩
  | escaped hx hn =>
      refine Or.inr ⟨c, [], rfl, hn, fun k _ => ?_⟩
      rw [List.singleton_append, Escape.read, if_neg (by simp [hn]), if_neg (by simp [hx])]
  | @code s e hs he =>
      obtain ⟨d, r, rfl⟩ := List.exists_cons_of_ne_nil hs.ne_nil
      refine Or.inr ⟨d, r ++ e, rfl, isNewline_of_hex (hs.hex d List.mem_cons_self), fun k hk => ?_⟩
      rw [← List.cons_append, List.append_assoc]
      exact hs.read (hends he) fun h => hk (h ▸ he)

theorem Written.head (h : Written plain ends c w) (hends : ends ⊆ endings) :
    ∃ d r, w = d :: r ∧ (d = '\\' ∨ plain d) := by
  rcases h.read hends with ⟨hc, rfl⟩ | ⟨d, r, rfl, -, -⟩
  · exact ⟨c, [], rfl, Or.inr hc⟩
  · exact ⟨'\\', d :: r, rfl, Or.inl rfl⟩

end SelectorSyntax.Text.Escape
