import SelectorSyntax.Proofs.Grammar.Places
import SelectorSyntax.Proofs.Spelling.Writing

namespace SelectorSyntax.Selector.Spelling

open Grammar Expression Text CharClass

variable {e : Expression} {d : Char} {k s t u v : List Char} {ns : List Node}

/-! Names. Where one ends, it ends in front of any text that does not go on with it. -/

/-- A name that ends where `u` and then other text is left ends there too if `k` is left instead. Without
anything in between, the last escape must not go on in `k`. -/
structure Parts (u k : List Char) : Prop where
  stops : Stops (u ++ k)
  ends : u ≠ [] ∨ Escape.Ends k

theorem read_replace (h : Escape.read (s ++ t) = some (d, u ++ t)) (hk : u ≠ [] ∨ Escape.Ends k) :
    Escape.read (s ++ k) = some (d, u ++ k) := Escape.read_append hk (Escape.read_cut h)

theorem run_letter_replace {p : Char → Bool}
    (he : ∀ s t ns, e.run Rule.run s = some (t, ns) ↔
      ((∃ d r, s = '\\' :: r ∧ Escape.read r = some (d, t)) ∨ ∃ c, p c = true ∧ s = c :: t) ∧ ns = [])
    (h : e.run Rule.run (s ++ t) = some (u ++ t, ns)) (hk : u ≠ [] ∨ Escape.Ends k) :
    e.run Rule.run (s ++ k) = some (u ++ k, ns) := by
  obtain ⟨h, hns⟩ := (he _ _ _).1 h
  refine (he _ _ _).2 ⟨?_, hns⟩
  rcases h with ⟨d, r, hs, hr⟩ | ⟨c, hc, hs⟩
  · cases s with
    | nil =>
        rw [List.nil_append] at hs
        have hlt := Escape.read_length hr
        rw [hs, List.length_append, List.length_cons] at hlt
        omega
    | cons c s =>
        cases hs
        exact Or.inl ⟨d, s ++ k, rfl, read_replace hr hk⟩
  · obtain rfl : s = c :: u := (List.append_left_inj t).1 hs
    exact Or.inr ⟨c, hc, rfl⟩

theorem ends_earlier (hk : u ≠ [] ∨ Escape.Ends k) (h : u ++ t <:+ v ++ t) : v ≠ [] ∨ Escape.Ends k := by
  refine hk.imp_left ?_
  rintro hu rfl
  have hle := h.length_le
  rw [List.length_append, List.nil_append] at hle
  exact hu (List.length_eq_zero_iff.1 (by omega))

theorem iterates_nmchar_replace (h : Iterates (nmchar.run Rule.run) (s ++ t) (u ++ t) ns)
    (hstop : nmchar.run Rule.run (u ++ k) = none) (hk : u ≠ [] ∨ Escape.Ends k) :
    Iterates (nmchar.run Rule.run) (s ++ k) (u ++ k) ns := by
  generalize hx : s ++ t = x at h
  generalize hy : u ++ t = y at h
  induction h generalizing s with
  | stop hs =>
      obtain rfl := (List.append_left_inj t).1 (hx.trans hy.symm)
      exact .stop hstop
  | next hs hi ih =>
      subst hx hy
      have hsuffix := hi.suffix fun h => run_suffix Rule.lawful_run nmchar h
      obtain ⟨v, rfl⟩ := exists_append_of_suffix hsuffix
      exact .next (run_letter_replace (fun _ _ _ => Identifier.run_nmchar_eq_some) hs (ends_earlier hk hsuffix)) (ih rfl rfl)

theorem head_replace (h : Identifier.Head (s ++ t) (v ++ t)) (hk : v ≠ [] ∨ Escape.Ends k) :
    Identifier.Head (s ++ k) (v ++ k) := by
  have hstart {s : List Char} (h : nmstart.run Rule.run (s ++ t) = some (v ++ t, [])) :
      nmstart.run Rule.run (s ++ k) = some (v ++ k, []) :=
    run_letter_replace (fun _ _ _ => Identifier.run_nmstart_eq_some) h hk
  generalize hx : s ++ t = x at h
  generalize hy : v ++ t = y at h
  cases h with
  | dashes =>
      subst hy
      obtain rfl : s = '-' :: '-' :: v := (List.append_left_inj t).1 hx
      exact .dashes
  | start h =>
      subst hx hy
      exact .start (hstart h)
  | @dash r _ h =>
      subst hy
      obtain ⟨w, rfl⟩ := exists_append_of_suffix (run_suffix Rule.lawful_run nmstart h)
      obtain rfl : s = '-' :: w := (List.append_left_inj t).1 hx
      exact .dash (hstart h)

theorem run_ident_replace (h : Rule.ident.run (s ++ t) = some (u ++ t, ns))
    (hstop : nmchar.run Rule.run (u ++ k) = none) (hk : u ≠ [] ∨ Escape.Ends k) :
    Rule.ident.run (s ++ k) = some (u ++ k, [⟨.ident, s ++ k, u ++ k, []⟩]) := by
  obtain ⟨x, hh, hi, -⟩ := Identifier.run_ident_eq_some.1 h
  have hsuffix := hi.suffix fun h => run_suffix Rule.lawful_run nmchar h
  obtain ⟨v, rfl⟩ := exists_append_of_suffix hsuffix
  exact Identifier.run_ident_eq_some.2
    ⟨v ++ k, head_replace hh (ends_earlier hk hsuffix), iterates_nmchar_replace hi hstop hk, rfl⟩

end SelectorSyntax.Selector.Spelling
