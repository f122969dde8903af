import SelectorSyntax.Proofs.Tokens.Identifier
import SelectorSyntax.Proofs.Tokens.Written

namespace SelectorSyntax.Text.Escape

open CharClass

variable {c d : Char} {n : Nat} {s t w : List Char}

/-! Which digits name a character. -/

theorem exists_of_isHexDigit (hd : isHexDigit d = true) :
    ∃ h < 16, hexValue? d = some h ∧ d.toLower = Nat.digitChar h := by
  have hall : ∀ n < 103, isHexDigit (Char.ofNat n) = true →
      ∃ h < 16, hexValue? (Char.ofNat n) = some h ∧ (Char.ofNat n).toLower = Nat.digitChar h := by decide
  have hlt : d.toNat < 103 := by
    by_contra hge
    have hnone : hexValue? d = none := by
      have hd : d.val.toNat = d.toNat := rfl
      simp only [hexValue?, Char.le_def, UInt32.le_iff_toNat_le, hd]
      rw [if_neg, if_neg, if_neg] <;>
      · rintro ⟨-, hle⟩
        exact hge (Nat.lt_of_le_of_lt hle (by decide))
    rw [isHexDigit, hnone] at hd
    cases hd
  have h := hall d.toNat hlt
  rw [Char.ofNat_toNat] at h
  exact h hd

theorem value_concat (s : List Char) (d : Char) : value (s ++ [d]) = 16 * value s + (hexValue? d).getD 0 := by
  rw [value, value, List.foldl_append]
  rfl

/-- Digits are zeros and then the digits of what they stand for. -/
theorem exists_zeros (hs : ∀ d ∈ s, isHexDigit d = true) : ∃ n, s.map Char.toLower =
    List.replicate n '0' ++ if value s = 0 then [] else Nat.toDigits 16 (value s) := by
  -- Values grow at the right end, where `Nat.toDigits` takes off digits, so the induction is from there.
  induction s using List.reverseRecOn with
  | nil => exact ⟨0, rfl⟩
  | append_singleton s d ih =>
      obtain ⟨n, hn⟩ := ih fun x hx => hs x (List.mem_append_left _ hx)
      obtain ⟨h, hlt, hv, hl⟩ := exists_of_isHexDigit (hs d (by simp))
      rw [List.map_append, hn, List.map_singleton, hl, value_concat, hv, Option.getD_some]
      by_cases hzero : value s = 0
      · rw [if_pos hzero, hzero, Nat.mul_zero, Nat.zero_add, List.append_nil]
        by_cases hh : h = 0
        · refine ⟨n + 1, ?_⟩
          rw [if_pos hh, hh, List.append_nil, List.replicate_succ']
          rfl
        · refine ⟨n, ?_⟩
          rw [if_neg hh, Nat.toDigits_of_lt_base hlt]
      · refine ⟨n, ?_⟩
        have hne : 16 * value s + h ≠ 0 := by omega
        have hge : ¬ 16 * value s + h < 16 := by omega
        have hdiv : (16 * value s + h) / 16 = value s := by omega
        have hmod : (16 * value s + h) % 16 = h := by omega
        rw [if_neg hzero, if_neg hne, Nat.toDigits_eq_if (n := 16 * value s + h) (by decide), if_neg hge, hdiv, hmod,
          List.append_assoc]

theorem eq_of_ofCode (h : ofCode n = c) (hc : c ≠ replacement) : c ≠ '\x00' ∧ n = c.toNat := by
  rw [ofCode] at h
  split at h
  next => exact absurd h.symm hc
  next hn =>
    rw [not_or, not_not] at hn
    have hcode : c.toNat = n := by rw [← h, Char.toNat_ofNat, if_pos hn.2]
    refine ⟨?_, hcode.symm⟩
    rintro rfl
    exact hn.1 hcode.symm

/-- Every escape by a code is written with digits that name the character, unless it stands for no character. -/
theorem names_of_value (hs : ∀ d ∈ s, isHexDigit d = true) (hl : s.length ≤ maxDigits) (h : ofCode (value s) = c)
    (hc : c ≠ replacement) : Names c s := by
  obtain ⟨hnull, hvalue⟩ := eq_of_ofCode h hc
  obtain ⟨n, hn⟩ := exists_zeros hs
  have hne : value s ≠ 0 := by
    rw [hvalue]
    intro hzero
    exact hnull (Char.toNat_inj.1 hzero)
  rw [if_neg hne, hvalue] at hn
  exact ⟨hnull, hl, n, hn⟩

/-! Escapes on their own. -/

/-- An escape of a character and nothing else: the character itself, or its code and what may end the digits. -/
inductive Single (c : Char) : List Char → Prop
  | itself : isHexDigit c = false → isNewline c = false → Single c ['\\', c]
  | code {s e : List Char} : Names c s → Terminator e → Single c ('\\' :: (s ++ e))

theorem dropTerminator_of_terminator (h : Terminator w) : dropTerminator w = [] := by
  cases h with
  | nothing => rfl
  | whitespace hc => exact (dropTerminator_eq_tail hc).2 fun v _ hv => by cases hv
  | newline => rfl

theorem Terminator.not_hex (h : Terminator w) : ∀ d r, w = d :: r → isHexDigit d = false := by
  rintro d r rfl
  cases h with
  | whitespace hd => exact not_hex_of_whitespace hd
  | newline => rfl

theorem read_eq_nil_iff (hc : c ≠ replacement) : read s = some (c, []) ↔ Single c ('\\' :: s) := by
  constructor
  · intro h
    obtain ⟨d, s, rfl⟩ : ∃ d t, s = d :: t := by
      cases s with
      | nil => cases h
      | cons d s => exact ⟨d, s, rfl⟩
    by_cases hd : isHexDigit d = true
    · obtain ⟨ds, r, hs, -, hds, hl, -, hvalue, hr⟩ := read_hex hd h
      obtain ⟨e, he, hre⟩ := dropTerminator_split r
      rw [← hr, List.append_nil] at hre
      rw [hs, hre]
      exact .code (names_of_value hds hl hvalue.symm hc) he
    · rw [read, if_neg hd] at h
      split at h
      next => cases h
      next hn =>
        cases h
        exact .itself (by simpa using hd) (by simpa using hn)
  · intro h
    cases h with
    | itself hx hn => rw [read, if_neg (by simp [hn]), if_neg (by simp [hx])]
    | code hs he =>
        rw [read_digits hs.ne_nil hs.hex hs.short (Or.inr he.not_hex), hs.value_eq, ofCode_toNat hs.nonzero,
          dropTerminator_of_terminator he]

end SelectorSyntax.Text.Escape

namespace SelectorSyntax.Text.Identifier

open CharClass Escape

variable {c : Char} {s t v w whole : List Char}

theorem eq_nil_of_readTail (h : readTail s = .ok ([], [])) : s = [] := by
  cases s with
  | nil => rfl
  | cons d r =>
      rw [readTail] at h
      split at h
      next =>
        split at h
        next => cases h
        next =>
          obtain ⟨_, -, hv⟩ := prepend_eq_ok.1 h
          cases hv
      next =>
        split at h
        next =>
          obtain ⟨_, -, hv⟩ := prepend_eq_ok.1 h
          cases hv
        next => cases h

theorem read_of_decode (h : decode w = .ok v) : read w = .ok (v, []) := by
  rw [decode] at h
  split at h
  next => cases h
  next hr =>
    cases h
    exact hr
  next => cases h

/-- What begins with a dash has that dash in its value, and more. -/
theorem head?_of_read_singleton (h : read w = .ok ([c], t)) : w.head? ≠ some '-' := by
  intro hw
  unfold read at h
  split at h
  next =>
    obtain ⟨v, -, hv⟩ := prepend_eq_ok.1 h
    cases hv
  next =>
    obtain ⟨v, hread, hv⟩ := prepend_eq_ok.1 h
    cases hv
    exact ne_nil_of_readHead hread rfl
  next r hdashes hdash =>
    obtain ⟨r, rfl⟩ := List.head?_eq_some_iff.1 hw
    exact hdash r rfl

/-- A name of one character that could not stand there as it is has been written as an escape. -/
theorem decode_eq_singleton_iff (hc : isIdentStart c = false) (hr : c ≠ replacement) :
    decode w = .ok [c] ↔ Single c w := by
  constructor
  · intro h
    have hread := read_of_decode h
    rw [read_start (head?_of_read_singleton hread)] at hread
    cases w with
    | nil => cases hread
    | cons d s =>
        rw [readHead] at hread
        split at hread
        next hd =>
          split at hread
          next => cases hread
          next x t hescape =>
            obtain ⟨v, htail, hv⟩ := prepend_eq_ok.1 hread
            cases hv
            obtain rfl := eq_nil_of_readTail htail
            rw [hd]
            exact (read_eq_nil_iff hr).1 hescape
        next =>
          split at hread
          next hstart =>
            obtain ⟨v, -, hv⟩ := prepend_eq_ok.1 hread
            cases hv
            cases hc.symm.trans hstart
          next => cases hread
  · intro h
    obtain ⟨s, rfl⟩ : ∃ s, w = '\\' :: s := by cases h <;> exact ⟨_, rfl⟩
    refine decode_of_read ?_
    rw [read_start (by simp), readHead_escape ((read_eq_nil_iff hr).2 h), readTail_nil]
    rfl

end SelectorSyntax.Text.Identifier
