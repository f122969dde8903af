import SelectorSyntax.Proofs.Completion.Numbers
import SelectorSyntax.Proofs.Spelling.NthDenoted

namespace SelectorSyntax.Selector.Spelling

open Grammar Text CharClass

variable {g ds s t : List Char}

/-! What the reader takes for numbers, in range or not. -/

theorem exists_of_readInteger (h : AnPlusB.readInteger s ≠ .error .invalid) :
    ∃ g ds, Sign g ∧ Digits ds ∧ ds ≠ [] ∧ s = g ++ ds := by
  have hdigits {ds : List Char} {x : Except AnPlusB.Fault Int}
      (h : (if (ds.isEmpty || !ds.all Char.isDigit) = true then .error .invalid else x) ≠ .error .invalid) :
      Digits ds ∧ ds ≠ [] := by
    split at h
    next => exact absurd rfl h
    next hds =>
      simp only [Bool.or_eq_true, not_or, Bool.not_eq_true', Bool.not_eq_false, List.isEmpty_iff] at hds
      exact ⟨List.all_eq_true.1 hds.2, hds.1⟩
  unfold AnPlusB.readInteger at h
  split at h
  next negative r heq =>
    split at heq
    next r =>
      cases heq
      obtain ⟨hds, hne⟩ := hdigits h
      exact ⟨['+'], _, .plus, hds, hne, rfl⟩
    next r =>
      cases heq
      obtain ⟨hds, hne⟩ := hdigits h
      exact ⟨['-'], _, .minus, hds, hne, rfl⟩
    next =>
      cases heq
      obtain ⟨hds, hne⟩ := hdigits h
      exact ⟨[], _, .none, hds, hne, rfl⟩

theorem exists_of_readStep (h : AnPlusB.readStep s ≠ .error .invalid) : ∃ g ds, Sign g ∧ Digits ds ∧ s = g ++ ds := by
  have hnil : Digits [] := fun c hc => absurd hc List.not_mem_nil
  unfold AnPlusB.readStep at h
  split at h
  next => exact ⟨[], [], .none, hnil, rfl⟩
  next => exact ⟨['+'], [], .plus, hnil, rfl⟩
  next => exact ⟨['-'], [], .minus, hnil, rfl⟩
  next =>
    obtain ⟨g, ds, hg, hds, -, hs⟩ := exists_of_readInteger h
    exact ⟨g, ds, hg, hds, hs⟩

theorem exists_of_readShift (h : AnPlusB.readShift s ≠ .error .invalid) :
    s = [] ∨ ∃ c es, Sign [c] ∧ Digits es ∧ es ≠ [] ∧ s = c :: es := by
  cases s with
  | nil => exact Or.inl rfl
  | cons c s =>
      rw [AnPlusB.readShift] at h
      split at h
      next hc =>
        obtain ⟨g, ds, hg, hds, hne, hs⟩ := exists_of_readInteger h
        cases hg with
        | none =>
            have hd : c.isDigit = true := hds c (by rw [← List.nil_append ds, ← hs]; exact List.mem_cons_self)
            simp only [Bool.or_eq_true, decide_eq_true_eq] at hc
            rcases hc with rfl | rfl <;> cases hd
        | plus =>
            cases hs
            exact Or.inr ⟨_, _, .plus, hds, hne, rfl⟩
        | minus =>
            cases hs
            exact Or.inr ⟨_, _, .minus, hds, hne, rfl⟩
      next => exact absurd rfl h

/-- Only letters have a case. -/
theorem eq_of_foldCase (h : AnPlusB.foldCase t = s) (hs : ∀ c ∈ s, c.isAlpha = false) : t = s := by
  subst h
  refine (List.map_id t).symm.trans (List.map_congr_left fun c hc => ?_)
  have hc := hs _ (List.mem_map_of_mem hc)
  rw [Char.isAlpha_toLower_eq_isAlpha, Char.isAlpha, Bool.or_eq_false_iff] at hc
  exact (Char.toLower_eq_of_not_isUpper (by simp [hc.1])).symm

/-- Signs and digits in front of an `n` of either case. -/
theorem exists_of_foldCase (hg : Sign g) (hds : Digits ds) (h : AnPlusB.foldCase t = g ++ ds ++ 'n' :: s) :
    ∃ n r, n.toLower = 'n' ∧ AnPlusB.foldCase r = s ∧ t = g ++ (ds ++ n :: r) := by
  obtain ⟨u, v, rfl, hu, hv⟩ := List.map_eq_append_iff.1 h
  obtain ⟨n, r, rfl, hn, hr⟩ := List.map_eq_cons_iff.1 hv
  obtain rfl := eq_of_foldCase hu (not_isAlpha hg hds)
  exact ⟨n, r, hn, hr, List.append_assoc _ _ _⟩

/-- A factor out of bounds, with anything behind its `n`. -/
inductive HugeStep : List Char → Prop
  | mk {g ds s : List Char} {n : Char} : Sign g → Digits ds → n.toLower = 'n' → ¬ InBounds (coefficient g ds) →
      HugeStep (g ++ (ds ++ n :: s))

/-- The factor is read first, so what is behind it is not looked at. -/
theorem HugeStep.read (h : HugeStep t) : AnPlusB.read t = .error .outOfRange := by
  obtain ⟨hg, hds, hn, hi⟩ := h
  rw [read_step hg hds hn, readStep_coefficient hg hds, bounded_of_not hi]
  rfl

theorem nth_or_huge_of_step (hg : Sign g) (hds : Digits ds) (ht : AnPlusB.foldCase t = g ++ ds ++ 'n' :: s)
    (h : InBounds (coefficient g ds) → AnPlusB.readShift s ≠ .error .invalid) : Nth t ∨ HugeStep t := by
  obtain ⟨n, u, hn, hu, rfl⟩ := exists_of_foldCase hg hds ht
  by_cases hi : InBounds (coefficient g ds)
  -- Only behind a factor in bounds is the rest read, and then it is all there is.
  · rcases exists_of_readShift (h hi) with rfl | ⟨c, es, hc, hes, hne, rfl⟩
    · obtain rfl : u = [] := List.map_eq_nil_iff.1 hu
      exact Or.inl (.step hg hds hn)
    · obtain rfl := eq_of_foldCase hu (not_isAlpha hc hes)
      exact Or.inl (.shifted (w := []) (u := []) hg hds hn (by simp) hc (by simp) hes hne)
  · exact Or.inr (.mk hg hds hn hi)

/-- A text without whitespace that is not refused as no number is one, or its factor is huge. -/
theorem nth_or_huge (ht : ∀ c ∈ t, isWhitespace c = false) (h : AnPlusB.read t ≠ .error .invalid) :
    Nth t ∨ HugeStep t := by
  rw [AnPlusB.read, normalize_of_dense ht, AnPlusB.readNormal] at h
  split at h
  next hodd => exact Or.inl (.keyword (hodd ▸ List.mem_cons_self))
  next =>
    split at h
    next heven => exact Or.inl (.keyword (heven ▸ List.mem_cons_of_mem _ List.mem_cons_self))
    next =>
      have hsplit := List.takeWhile_append_dropWhile (p := (· ≠ 'n')) (l := AnPlusB.foldCase t)
      split at h
      next hdrop =>
        rw [hdrop, List.append_nil] at hsplit
        obtain ⟨g, ds, hg, hds, hne, hs⟩ := exists_of_readInteger (s := AnPlusB.foldCase t) fun he => by
          rw [he] at h
          exact h rfl
        obtain rfl := eq_of_foldCase hs (not_isAlpha hg hds)
        exact Or.inl (.integer hg hds hne)
      next c r hdrop =>
        have hn : c = 'n' := by
          have hhead := List.head?_dropWhile_not (· ≠ 'n') (AnPlusB.foldCase t)
          rw [hdrop] at hhead
          simpa using hhead
        obtain ⟨g, ds, hg, hds, htake⟩ := exists_of_readStep fun he => h (bind_eq_error.2 (Or.inl he))
        rw [htake, hdrop, hn] at hsplit
        refine nth_or_huge_of_step hg hds hsplit.symm fun hi he => h (bind_eq_error.2 (Or.inr ?_))
        have hstep := (readStep_coefficient hg hds).trans (bounded_of hi)
        exact ⟨_, htake ▸ hstep, bind_eq_error.2 (Or.inl he)⟩

end SelectorSyntax.Selector.Spelling
