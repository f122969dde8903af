import SelectorSyntax.Proofs.Spelling.Endings

namespace SelectorSyntax.Selector.Spelling

open Grammar Expression Text CharClass

/-! Escapes in front of a space. -/

/-- The last escape of a word is of digits that nothing ends: a whitespace behind the word would belong to it. -/
inductive OpenEnd : List Char → Prop
  | digits {ds} : ds ≠ [] → ds.length ≤ Escape.maxDigits → (∀ c ∈ ds, isHexDigit c = true) → OpenEnd ('\\' :: ds)
  | escaped {c w} : OpenEnd w → OpenEnd ('\\' :: c :: w)
  | other {c w} : c ≠ '\\' → OpenEnd w → OpenEnd (c :: w)

variable {e : Expression} {c d : Char} {k s t u v w x : List Char} {ns : List Node}

theorem OpenEnd.prepend (hx : '\\' ∉ x) (h : OpenEnd w) : OpenEnd (x ++ w) := by
  induction x with
  | nil => exact h
  | cons c x ih =>
      rw [List.mem_cons, not_or] at hx
      exact .other (Ne.symm hx.1) (ih hx.2)

theorem OpenEnd.strip (hx : '\\' ∉ x) (h : OpenEnd (x ++ w)) : OpenEnd w := by
  induction x with
  | nil => exact h
  | cons c x ih =>
      rw [List.mem_cons, not_or] at hx
      rw [List.cons_append] at h
      generalize hy : x ++ w = y at h
      cases h with
      | digits => exact absurd rfl hx.1
      | escaped => exact absurd rfl hx.1
      | other _ h => exact ih hx.2 (hy ▸ h)

theorem OpenEnd.last (h : OpenEnd w) : ∃ x c, w = x ++ [c] ∧ isHexDigit c = true := by
  induction h with
  | @digits ds hne _ hds =>
      refine ⟨'\\' :: ds.dropLast, ds.getLast hne, ?_, hds _ (List.getLast_mem hne)⟩
      rw [List.cons_append, List.dropLast_concat_getLast]
  | @escaped c w _ ih =>
      obtain ⟨x, d, rfl, hd⟩ := ih
      exact ⟨'\\' :: c :: x, d, rfl, hd⟩
  | @other c w _ _ ih =>
      obtain ⟨x, d, rfl, hd⟩ := ih
      exact ⟨c :: x, d, rfl, hd⟩

theorem ne_backslash_of_hex (h : isHexDigit c = true) : c ≠ '\\' := by
  rintro rfl
  cases h

theorem Terminator.not_mem {w : List Char} (h : Escape.Terminator w) : '\\' ∉ w := by
  cases h with
  | nothing => exact List.not_mem_nil
  | whitespace hc =>
      rw [List.mem_singleton]
      rintro rfl
      cases hc
  | newline => decide

theorem dropTerminator_space (h : Escape.dropTerminator v = []) (hv : v ≠ []) :
    Escape.dropTerminator (v ++ ' ' :: k) = ' ' :: k := by
  obtain ⟨w, hw, hs⟩ := Escape.dropTerminator_split v
  rw [h, List.append_nil] at hs
  subst hs
  cases hw with
  | nothing => exact absurd rfl hv
  | whitespace hc => exact (Escape.dropTerminator_eq_tail hc).2 fun v _ hv => by cases hv
  | newline => rfl

/-- An escape is read in front of a space if the space cannot be taken for its end. -/
theorem read_space (h : Escape.read (s ++ t) = some (d, u ++ t)) (ho : ¬ OpenEnd ('\\' :: s)) :
    Escape.read (s ++ ' ' :: k) = some (d, u ++ ' ' :: k) ∧ ¬ OpenEnd u := by
  have hcut := Escape.read_cut h
  cases s with
  | nil => cases hcut
  | cons c s =>
      constructor
      · by_cases hu : u = []
        · subst hu
          by_cases hc : isHexDigit c = true
          · obtain ⟨ds, r, hs, hne, hds, hl, hr, rfl, hdrop⟩ := Escape.read_hex hc hcut
            have hrne : r ≠ [] := by
              rintro rfl
              rw [List.append_nil] at hs
              exact ho (hs ▸ .digits hne hl hds)
            rw [hs, List.append_assoc, Escape.read_digits hne hds hl, dropTerminator_space hdrop.symm hrne, List.nil_append]
            refine hr.imp_right fun hr x v hx => ?_
            obtain ⟨y, r, rfl⟩ := List.exists_cons_of_ne_nil hrne
            cases hx
            exact hr x r rfl
          · rw [Escape.read] at hcut
            split at hcut
            next => cases hcut
            next hn =>
              cases hcut
              rw [List.cons_append, Escape.read, if_neg hn, if_neg hc]
        · exact Escape.read_append (Or.inl hu) hcut
      · obtain ⟨-, ds, w, rfl, hds, hw, -⟩ := Escape.read_split hcut
        intro hu
        refine ho (.escaped (.prepend (fun hb => ?_) (.prepend (Terminator.not_mem hw) hu)))
        exact ne_backslash_of_hex (hds _ hb) rfl

/-- One round of a name stays in front of the open end, since the whitespace behind the word goes to its last escape. -/
theorem OpenEnd.round (ho : OpenEnd w) (hc : isWhitespace c = true)
    (h : nmchar.run Rule.run (w ++ c :: s) = some (v ++ c :: s, ns)) : OpenEnd v := by
  rcases (Identifier.run_nmchar_eq_some.1 h).1 with ⟨d, r, hr, hd⟩ | ⟨d, hd, hr⟩
  · cases ho with
    | @digits ds hne hl hds =>
        have hblank : ∀ x u, c :: s = x :: u → isHexDigit x = false := by
          rintro x u ⟨⟩
          exact Escape.not_hex_of_whitespace hc
        have hread := Escape.read_digits hne hds hl (Or.inr hblank)
        have hrest : ds ++ c :: s = r := (List.cons.inj hr).2
        rw [hrest, hd] at hread
        have hlt := Escape.dropTerminator_lt (s := s) hc
        rw [← (Prod.mk.inj (Option.some.inj hread)).2, List.length_append] at hlt
        omega
    | @escaped e u hu =>
        obtain rfl := (List.cons.inj hr).2
        obtain ⟨-, ds, z, hsplit, hds, hz, -⟩ := Escape.read_split hd
        obtain rfl : u = ds ++ (z ++ v) := by
          rw [← List.append_assoc, ← List.append_assoc] at hsplit
          rw [List.append_cancel_right hsplit, List.append_assoc]
        exact .strip (Terminator.not_mem hz) (.strip (fun hb => ne_backslash_of_hex (hds _ hb) rfl) hu)
    | other hb => exact absurd (List.cons.inj hr).1 hb
  · obtain rfl : w = d :: v := by
      rw [← List.cons_append] at hr
      exact List.append_cancel_right hr
    refine .strip (x := [d]) ?_ ho
    rw [List.mem_singleton]
    rintro rfl
    cases hd

/-- The last escape of a word takes the whitespace behind the word. -/
theorem OpenEnd.not_nmchars (ho : OpenEnd w) (hc : isWhitespace c = true) :
    ¬ Iterates (nmchar.run Rule.run) (w ++ c :: s) (c :: s) ns := by
  intro hi
  generalize hx : w ++ c :: s = x at hi
  generalize hy : c :: s = y at hi
  induction hi generalizing w with
  | stop =>
      subst hy
      obtain rfl := List.append_left_eq_self.1 hx
      cases ho
  | next hs hi ih =>
      subst hx hy
      obtain ⟨v, rfl⟩ := hi.suffix fun h => run_suffix Rule.lawful_run nmchar h
      exact ih (ho.round hc hs) rfl rfl

/-! Names in front of other text than they were in front of. -/

/-- What may stand behind a name without going on with it. A space may not if it would end the last escape. -/
structure Behind (w k : List Char) : Prop where
  stops : Stops k
  ends : Escape.Ends k ∨ (∃ r, k = ' ' :: r) ∧ ¬ OpenEnd w

theorem Behind.read (h : Escape.read (s ++ t) = some (d, u ++ t)) (hk : Behind ('\\' :: s) k) :
    Escape.read (s ++ k) = some (d, u ++ k) ∧ Behind u k := by
  rcases hk.ends with hends | ⟨⟨r, rfl⟩, ho⟩
  · exact ⟨read_replace h (Or.inr hends), hk.stops, Or.inl hends⟩
  · obtain ⟨hread, hu⟩ := read_space h ho
    exact ⟨hread, hk.stops, Or.inr ⟨⟨r, rfl⟩, hu⟩⟩

theorem Behind.tail (hc : c ≠ '\\') (hk : Behind (c :: w) k) : Behind w k :=
  ⟨hk.stops, hk.ends.imp_right fun h => ⟨h.1, fun hw => h.2 (.other hc hw)⟩⟩

theorem Behind.letter {p : Char → Bool} (hp : p '\\' = false)
    (he : ∀ s t ns, e.run Rule.run s = some (t, ns) ↔
      ((∃ d r, s = '\\' :: r ∧ Escape.read r = some (d, t)) ∨ ∃ c, p c = true ∧ s = c :: t) ∧ ns = [])
    (h : e.run Rule.run (s ++ t) = some (u ++ t, ns)) (hk : Behind s k) :
    e.run Rule.run (s ++ k) = some (u ++ k, ns) ∧ Behind u k := by
  obtain ⟨h, hns⟩ := (he _ _ _).1 h
  have hne : s ≠ [] := by
    rintro rfl
    rcases h with ⟨d, r, hs, hr⟩ | ⟨c, -, hs⟩
    · have hlt := Escape.read_length hr
      have hlen := congrArg List.length hs
      simp only [List.nil_append, List.length_append, List.length_cons] at hlt hlen
      omega
    · have hlen := congrArg List.length hs
      simp only [List.nil_append, List.length_append, List.length_cons] at hlen
      omega
  obtain ⟨c, s, rfl⟩ := List.exists_cons_of_ne_nil hne
  rcases h with ⟨d, r, hs, hr⟩ | ⟨c, hc, hs⟩
  · cases hs
    obtain ⟨hread, hu⟩ := hk.read hr
    exact ⟨(he _ _ _).2 ⟨Or.inl ⟨d, s ++ k, rfl, hread⟩, hns⟩, hu⟩
  · obtain ⟨rfl, rfl⟩ := List.cons.inj ((List.append_left_inj t).1 hs)
    refine ⟨(he _ _ _).2 ⟨Or.inr ⟨c, hc, rfl⟩, hns⟩, hk.tail ?_⟩
    rintro rfl
    rw [hp] at hc
    cases hc

theorem Behind.nmchars (h : Iterates (nmchar.run Rule.run) (s ++ t) t ns) (hk : Behind s k) :
    Iterates (nmchar.run Rule.run) (s ++ k) k ns := by
  generalize hx : s ++ t = x at h
  induction h generalizing s with
  | stop =>
      obtain rfl := List.append_left_eq_self.1 hx
      exact .stop hk.stops.run_nmchar
  | next hs hi ih =>
      subst hx
      obtain ⟨v, rfl⟩ := hi.suffix fun h => run_suffix Rule.lawful_run nmchar h
      obtain ⟨hrun, hv⟩ := hk.letter (by decide) (fun _ _ _ => Identifier.run_nmchar_eq_some) hs
      exact .next hrun (ih hv rfl)

theorem Behind.head (h : Identifier.Head (s ++ t) (v ++ t)) (hk : Behind s k) :
    Identifier.Head (s ++ k) (v ++ k) ∧ Behind v k := by
  have hstart {s : List Char} (h : nmstart.run Rule.run (s ++ t) = some (v ++ t, [])) (hk : Behind s k) :
      nmstart.run Rule.run (s ++ k) = some (v ++ k, []) ∧ Behind v k :=
    hk.letter (by decide) (fun _ _ _ => Identifier.run_nmstart_eq_some) h
  generalize hx : s ++ t = x at h
  generalize hy : v ++ t = y at h
  cases h with
  | dashes =>
      subst hy
      obtain rfl : s = '-' :: '-' :: v := (List.append_left_inj t).1 hx
      exact ⟨.dashes, (hk.tail (by decide)).tail (by decide)⟩
  | start h =>
      subst hx hy
      exact ⟨.start (hstart h hk).1, (hstart h hk).2⟩
  | @dash r _ h =>
      subst hy
      obtain ⟨w, rfl⟩ := exists_append_of_suffix (run_suffix Rule.lawful_run nmstart h)
      obtain rfl : s = '-' :: w := (List.append_left_inj t).1 hx
      have hw := hk.tail (by decide)
      exact ⟨.dash (hstart h hw).1, (hstart h hw).2⟩

theorem Behind.ident (h : Rule.ident.run (w ++ t) = some (t, ns)) (hk : Behind w k) :
    Rule.ident.run (w ++ k) = some (k, [⟨.ident, w ++ k, k, []⟩]) := by
  obtain ⟨x, hh, hi, -⟩ := Identifier.run_ident_eq_some.1 h
  obtain ⟨v, rfl⟩ := hi.suffix fun h => run_suffix Rule.lawful_run nmchar h
  obtain ⟨hhead, hv⟩ := hk.head hh
  exact Identifier.run_ident_eq_some.2 ⟨v ++ k, hhead, hv.nmchars hi, rfl⟩

end SelectorSyntax.Selector.Spelling
