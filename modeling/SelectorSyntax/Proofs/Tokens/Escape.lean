import SelectorSyntax.Proofs.Grammar.Unfold
import SelectorSyntax.Text.Escape

namespace SelectorSyntax.Text.Escape

open CharClass

/-- What ends the digits of an escape and belongs to it: nothing, one whitespace, or a carriage
return with its line feed. -/
inductive Terminator : List Char → Prop
  | nothing : Terminator []
  | whitespace {c} : isWhitespace c = true → Terminator [c]
  | newline : Terminator ['\r', '\n']

theorem dropTerminator_split (s : List Char) : ∃ w, Terminator w ∧ s = w ++ dropTerminator s := by
  unfold dropTerminator
  split
  next s => exact ⟨_, .newline, rfl⟩
  next c s _ =>
    split
    next hc => exact ⟨[c], .whitespace hc, rfl⟩
    next => exact ⟨[], .nothing, rfl⟩
  next => exact ⟨[], .nothing, rfl⟩

theorem dropTerminator_cons {c : Char} {s : List Char} (h : ∀ v, c = '\r' → s ≠ '\n' :: v) :
    dropTerminator (c :: s) = if isWhitespace c then s else c :: s :=
  dropTerminator.eq_2 c s h

theorem dropTerminator_lt {c : Char} {s : List Char} (hc : isWhitespace c = true) :
    (dropTerminator (c :: s)).length < (c :: s).length := by
  unfold dropTerminator
  split
  next heq =>
    rw [heq]
    exact Nat.lt_succ_of_lt (Nat.lt_succ_self _)
  next heq =>
    cases heq
    rw [if_pos hc]
    exact Nat.lt_succ_self _
  next heq => cases heq

theorem dropTerminator_eq_self {s : List Char} :
    dropTerminator s = s ↔ ∀ c r, s = c :: r → isWhitespace c = false := by
  constructor
  · rintro h c r rfl
    cases hc : isWhitespace c with
    | false => rfl
    | true =>
        have hl := dropTerminator_lt (s := r) hc
        rw [h] at hl
        exact absurd hl (Nat.lt_irrefl _)
  · intro h
    cases s with
    | nil => rfl
    | cons c r =>
        have hc := h c r rfl
        rw [dropTerminator_cons, if_neg (by simp [hc])]
        rintro v rfl
        cases hc

theorem dropTerminator_eq_tail {c : Char} {s : List Char} (hc : isWhitespace c = true) :
    dropTerminator (c :: s) = s ↔ ∀ v, c = '\r' → s ≠ '\n' :: v := by
  constructor
  · rintro h v rfl rfl
    exact absurd (congrArg List.length h) (Nat.ne_of_lt (Nat.lt_succ_self _))
  · intro h
    rw [dropTerminator_cons h, if_pos hc]

theorem isNewline_of_hex {c : Char} (h : isHexDigit c = true) : isNewline c = false := by
  cases hn : isNewline c with
  | false => rfl
  | true =>
      simp only [isNewline, Bool.or_eq_true, decide_eq_true_eq] at hn
      rcases hn with (rfl | rfl) | rfl <;> cases h

theorem not_hex_of_whitespace {c : Char} (h : isWhitespace c = true) : isHexDigit c = false := by
  simp only [isWhitespace, isNewline, Bool.or_eq_true, decide_eq_true_eq] at h
  rcases h with (rfl | rfl) | (rfl | rfl) | rfl <;> rfl

/-- An escape is one character, more digits if that is a digit, and then what ends the digits. -/
theorem read_split {c d : Char} {s t : List Char} (h : read (c :: s) = some (d, t)) :
    isNewline c = false ∧ ∃ ds w, s = ds ++ (w ++ t) ∧ (∀ x ∈ ds, isHexDigit x = true) ∧ Terminator w ∧
      (isHexDigit c = false → ds = [] ∧ w = []) := by
  simp only [read] at h
  split at h
  next => cases h
  next hn =>
    refine ⟨by simpa using hn, ?_⟩
    split at h
    next hc =>
      cases h
      obtain ⟨ds, hds⟩ : ∃ ds, ((c :: s).takeWhile isHexDigit).take maxDigits = c :: ds :=
        ⟨(s.takeWhile isHexDigit).take 5, by simp [hc, maxDigits]⟩
      have hpre : c :: ds <+: c :: s := hds ▸ (List.take_prefix _ _).trans (List.takeWhile_prefix _)
      obtain ⟨r, hr⟩ := hpre
      obtain ⟨w, hw, hdrop⟩ := dropTerminator_split r
      have hrest : (c :: s).drop (c :: ds).length = r := by rw [← hr, List.drop_left]
      refine ⟨ds, w, ?_, ?_, hw, ?_⟩
      · rw [hds, hrest, ← hdrop]
        exact (List.cons.inj hr).2.symm
      · intro x hx
        have hm : x ∈ ((c :: s).takeWhile isHexDigit).take maxDigits := hds ▸ List.mem_cons_of_mem c hx
        exact List.all_eq_true.1 List.all_takeWhile x (List.mem_of_mem_take hm)
      · intro hf
        rw [hc] at hf
        cases hf
    next =>
      cases h
      exact ⟨[], [], rfl, fun x hx => absurd hx List.not_mem_nil, .nothing, fun _ => ⟨rfl, rfl⟩⟩

/-- A backslash that starts an escape is read with what belongs to it. -/
theorem exists_read {s : List Char} (hv : isValid ('\\' :: s) = true) : ∃ d t, read s = some (d, t) := by
  cases s with
  | nil => cases hv
  | cons c s =>
      have hc : isNewline c = false := by simpa [isValid] using hv
      rw [read, if_neg (by simp [hc])]
      split
      · exact ⟨_, _, rfl⟩
      · exact ⟨_, _, rfl⟩

theorem read_suffix {d : Char} {s t : List Char} (h : read s = some (d, t)) : t <:+ s := by
  cases s with
  | nil => cases h
  | cons c s =>
      obtain ⟨-, ds, w, rfl, -⟩ := read_split h
      rw [← List.append_assoc]
      exact (List.suffix_append _ t).trans (List.suffix_cons c _)

/-! An escape in other surroundings. -/

/-- A text that goes on with neither a digit nor whitespace leaves an escape before it as it is. -/
def Ends (k : List Char) : Prop := ∀ c r, k = c :: r → isHexDigit c = false ∧ isWhitespace c = false

theorem Ends.cons {c : Char} {s : List Char} (hx : isHexDigit c = false)
    (hw : isWhitespace c = false) : Ends (c :: s) := by
  intro d r h
  cases h
  exact ⟨hx, hw⟩

theorem dropTerminator_append {s k : List Char} (hk : dropTerminator s ≠ [] ∨ Ends k) :
    dropTerminator (s ++ k) = dropTerminator s ++ k := by
  obtain ⟨w, hw, hs⟩ := dropTerminator_split s
  generalize hu : dropTerminator s = u at hk hs
  subst hs
  -- `u ++ k` begins as `u` does, or as `k`, and then not with whitespace.
  have hhead {c : Char} {r : List Char} (hr : u ++ k = c :: r) :
      (∃ r', u = c :: r') ∨ isWhitespace c = false := by
    cases u with
    | nil => exact Or.inr (hk.resolve_left (fun h => h rfl) c r hr).2
    | cons d u =>
        cases hr
        exact Or.inl ⟨u, rfl⟩
  rw [List.append_assoc]
  cases hw with
  | nothing =>
      refine dropTerminator_eq_self.2 fun c r hr => ?_
      rcases hhead hr with ⟨r', rfl⟩ | hc
      · exact dropTerminator_eq_self.1 hu c r' rfl
      · exact hc
  | whitespace hc =>
      refine (dropTerminator_eq_tail hc).2 fun v hcr hr => ?_
      rcases hhead hr with ⟨r', rfl⟩ | hn
      · exact (dropTerminator_eq_tail hc).1 hu r' hcr rfl
      · cases hn
  | newline => rfl

theorem dropTerminator_cut {s t u : List Char} (h : dropTerminator (s ++ t) = u ++ t) :
    dropTerminator s = u := by
  obtain ⟨w, hw, hs⟩ := dropTerminator_split (s ++ t)
  rw [h, ← List.append_assoc] at hs
  obtain rfl := List.append_cancel_right hs
  rw [List.append_assoc] at h
  cases hw with
  | nothing =>
      refine dropTerminator_eq_self.2 fun c r hr => dropTerminator_eq_self.1 h c (r ++ t) ?_
      exact congrArg (fun x => x ++ t) hr
  | whitespace hc =>
      refine (dropTerminator_eq_tail hc).2 fun v hcr hr => (dropTerminator_eq_tail hc).1 h (v ++ t) hcr ?_
      exact congrArg (fun x => x ++ t) hr
  | newline => rfl

/-- Up to six digits are read as far as they go. -/
theorem read_digits {ds r : List Char} (hne : ds ≠ []) (hds : ∀ c ∈ ds, isHexDigit c = true)
    (hl : ds.length ≤ maxDigits)
    (hr : ds.length = maxDigits ∨ ∀ c u, r = c :: u → isHexDigit c = false) :
    read (ds ++ r) = some (ofCode (value ds), dropTerminator r) := by
  obtain ⟨c, ds, rfl⟩ := List.exists_cons_of_ne_nil hne
  have hc := hds c List.mem_cons_self
  have htake : ((c :: ds ++ r).takeWhile isHexDigit).take maxDigits = c :: ds := by
    rw [List.takeWhile_append_of_pos hds]
    rcases hr with hr | hr
    · rw [← hr, List.take_left]
    · have hnil : r.takeWhile isHexDigit = [] := by
        cases r with
        | nil => rfl
        | cons d u => rw [List.takeWhile_cons, hr d u rfl]; rfl
      rw [hnil, List.append_nil, List.take_of_length_le hl]
  rw [List.cons_append] at htake
  rw [List.cons_append, read, if_neg (by simp [isNewline_of_hex hc]), if_pos hc]
  simp only [htake]
  rw [← List.cons_append, List.drop_left]

/-- An escape of digits is read as far as its digits and what ends them go. -/
theorem read_hex {c d : Char} {s t : List Char} (hc : isHexDigit c = true)
    (h : read (c :: s) = some (d, t)) :
    ∃ ds r, c :: s = ds ++ r ∧ ds ≠ [] ∧ (∀ x ∈ ds, isHexDigit x = true) ∧ ds.length ≤ maxDigits ∧
      (ds.length = maxDigits ∨ ∀ x u, r = x :: u → isHexDigit x = false) ∧
      d = ofCode (value ds) ∧ t = dropTerminator r := by
  rw [read, if_neg (by simp [isNewline_of_hex hc]), if_pos hc] at h
  cases h
  generalize hw : (c :: s).takeWhile isHexDigit = w
  have hall : ∀ x ∈ w, isHexDigit x = true := fun x hx => List.all_eq_true.1 (hw ▸ List.all_takeWhile) x hx
  have hsplit : c :: s = w ++ (c :: s).dropWhile isHexDigit := by rw [← hw, List.takeWhile_append_dropWhile]
  have hwne : w ≠ [] := by
    rw [← hw, List.takeWhile_cons, if_pos hc]
    exact List.cons_ne_nil _ _
  refine ⟨w.take maxDigits, (c :: s).drop (w.take maxDigits).length, ?_, ?_, ?_, ?_, ?_, rfl, rfl⟩
  · have hpre : w.take maxDigits <+: c :: s := (List.take_prefix _ _).trans ⟨_, hsplit.symm⟩
    obtain ⟨r, hr⟩ := hpre
    rw [← hr, List.drop_left]
  · simpa [maxDigits] using hwne
  · exact fun x hx => hall x (List.mem_of_mem_take hx)
  · exact List.length_take_le _ _
  · rcases Nat.lt_or_ge w.length maxDigits with hlt | hge
    · right
      intro x u hx
      rw [List.take_of_length_le (Nat.le_of_lt hlt)] at hx
      have hd : (w ++ (c :: s).dropWhile isHexDigit).drop w.length = x :: u := by
        rw [← hsplit]
        exact hx
      rw [List.drop_left] at hd
      have hhead := List.head?_dropWhile_not isHexDigit (c :: s)
      rwa [hd] at hhead
    · left
      exact List.length_take_of_le hge

/-- Something may be put behind an escape, if it cannot be taken for a part of it. -/
theorem read_append {d : Char} {s t k : List Char} (hk : t ≠ [] ∨ Ends k) (h : read s = some (d, t)) :
    read (s ++ k) = some (d, t ++ k) := by
  cases s with
  | nil => cases h
  | cons c s =>
      by_cases hc : isHexDigit c = true
      · obtain ⟨ds, r, hs, hne, hds, hl, hr, rfl, rfl⟩ := read_hex hc h
        rw [hs, List.append_assoc, read_digits hne hds hl, dropTerminator_append hk]
        refine hr.imp_right fun hr x u hx => ?_
        cases r with
        | nil => exact (hk.resolve_left (by simp [dropTerminator]) x u hx).1
        | cons y r =>
            cases hx
            exact hr x r rfl
      · rw [read] at h
        split at h
        next => cases h
        next hn =>
          cases h
          rw [List.cons_append, read, if_neg hn, if_neg hc]

/-- What follows an escape may stop anywhere. -/
theorem read_append_of_ne_nil {s k : List Char} (hs : s ≠ []) (hk : Ends k) :
    read (s ++ k) = (read s).map fun x => (x.1, x.2 ++ k) := by
  obtain ⟨c, s, rfl⟩ := List.exists_cons_of_ne_nil hs
  cases h : read (c :: s) with
  | some x => exact read_append (Or.inr hk) h
  | none =>
      have hc : isNewline c = true := by
        rw [read] at h
        split at h
        next hc => exact hc
        next => split at h <;> cases h
      rw [List.cons_append, read, if_pos hc]
      rfl

theorem read_cut {d : Char} {s t u : List Char} (h : read (s ++ t) = some (d, u ++ t)) :
    read s = some (d, u) := by
  cases s with
  | nil =>
      have hl := read_length h
      rw [List.nil_append, List.length_append] at hl
      exact absurd hl (by omega)
  | cons c s =>
      rw [List.cons_append] at h
      by_cases hc : isHexDigit c = true
      · obtain ⟨ds, r, hs, hne, hds, hl, hr, rfl, ht⟩ := read_hex hc h
        obtain ⟨w, -, hrw⟩ := dropTerminator_split r
        rw [← ht, ← List.append_assoc] at hrw
        have hcs : c :: s = ds ++ (w ++ u) := by
          rw [hrw, ← List.append_assoc, ← List.cons_append] at hs
          exact List.append_cancel_right hs
        rw [hrw] at ht
        rw [hcs, read_digits hne hds hl, dropTerminator_cut ht.symm]
        refine hr.imp_right fun hr x v hx => hr x (v ++ t) ?_
        rw [hrw, hx]
        rfl
      · rw [read] at h
        split at h
        next => cases h
        next hn =>
          obtain ⟨rfl, hst⟩ := Prod.mk.inj (Option.some.inj h)
          rw [read, if_neg hn, if_neg hc, List.append_cancel_right hst]

end SelectorSyntax.Text.Escape
