import SelectorSyntax.Grammar.Match

namespace SelectorSyntax.Grammar

/-- The rules whose matches all take at least one character. -/
def Rule.takes : Rule → Bool
  | endOfInput | text => false
  | _ => true

namespace Expression

variable {rules : Rule → Matcher} {e f : Expression} {s t : List Char} {ns : List Node}

/-! Inversion: what a match or a failure of each form consists of. -/

@[simp] theorem seqs_singleton (e : Expression) : seqs [e] = e := rfl

@[simp] theorem seqs_cons_cons (e f : Expression) (es : List Expression) :
    seqs (e :: f :: es) = seq e (seqs (f :: es)) := rfl

@[simp] theorem choices_singleton (e : Expression) : choices [e] = e := rfl

@[simp] theorem choices_cons_cons (e f : Expression) (es : List Expression) :
    choices (e :: f :: es) = choice e (choices (f :: es)) := rfl

theorem run_empty : empty.run rules s = some (s, []) := rfl

theorem run_call (r : Rule) : (call r).run rules s = rules r s := rfl

theorem run_seq : (seq e f).run rules s =
    match e.run rules s with
    | none => none
    | some (t, ns) => (f.run rules t).map fun (u, ms) => (u, ns ++ ms) := rfl

theorem run_choice : (choice e f).run rules s =
    match e.run rules s with
    | none => f.run rules s
    | some x => some x := rfl

theorem run_star : (star e).run rules s = some (repeated (e.run rules) (rounds s) s) := rfl

theorem run_absent : (absent e).run rules s =
    match e.run rules s with
    | none => some (s, [])
    | some _ => none := rfl

theorem run_char_nil (p : Char → Bool) : (char p).run rules [] = none := rfl

theorem run_char_cons (p : Char → Bool) (c : Char) :
    (char p).run rules (c :: s) = if p c then some (s, []) else none := rfl

theorem run_char_eq_some {p : Char → Bool} :
    (char p).run rules s = some (t, ns) ↔ ∃ c, p c = true ∧ s = c :: t ∧ ns = [] := by
  cases s with
  | nil => simp [run_char_nil]
  | cons c s =>
      rw [run_char_cons]
      by_cases hc : p c = true
      · rw [if_pos hc]
        constructor
        · intro h
          cases h
          exact ⟨c, hc, rfl, rfl⟩
        · rintro ⟨d, hd, hs, rfl⟩
          cases hs
          rfl
      · rw [if_neg hc]
        constructor
        · intro h
          cases h
        · rintro ⟨d, hd, hs, rfl⟩
          cases hs
          exact absurd hd hc

theorem run_char_eq_none {p : Char → Bool} :
    (char p).run rules s = none ↔ ∀ c r, s = c :: r → p c = false := by
  cases s with
  | nil => simp [run_char_nil]
  | cons c s => simp [run_char_cons]

theorem run_seq_eq_some : (seq e f).run rules s = some (t, ns) ↔
    ∃ u ms ks, e.run rules s = some (u, ms) ∧ f.run rules u = some (t, ks) ∧ ns = ms ++ ks := by
  constructor
  · intro h
    rw [run_seq] at h
    split at h
    next => cases h
    next u ms hu =>
      obtain ⟨⟨v, ks⟩, hv, hx⟩ := Option.map_eq_some_iff.1 h
      cases hx
      exact ⟨u, ms, ks, hu, hv, rfl⟩
  · rintro ⟨u, ms, ks, hu, hv, rfl⟩
    simp only [run_seq, hu, hv, Option.map_some]

theorem run_seq_of_run (h : e.run rules s = some (t, [])) : (seq e f).run rules s = f.run rules t := by
  simp [run_seq, h]

theorem run_seq_eq_none : (seq e f).run rules s = none ↔
    e.run rules s = none ∨ ∃ u ms, e.run rules s = some (u, ms) ∧ f.run rules u = none := by
  cases he : e.run rules s with
  | none => simp [run_seq, he]
  | some x =>
      obtain ⟨u, ms⟩ := x
      simp [run_seq, he]

theorem run_choice_eq_some {x : List Char × List Node} : (choice e f).run rules s = some x ↔
    e.run rules s = some x ∨ e.run rules s = none ∧ f.run rules s = some x := by
  cases he : e.run rules s with
  | none => simp [run_choice, he]
  | some y => simp [run_choice, he]

theorem run_choice_of_none_right (h : f.run rules s = none) :
    (choice e f).run rules s = e.run rules s := by
  rw [run_choice]
  cases he : e.run rules s with
  | none => exact h
  | some x => rfl

theorem run_choice_eq_none :
    (choice e f).run rules s = none ↔ e.run rules s = none ∧ f.run rules s = none := by
  cases he : e.run rules s with
  | none => simp [run_choice, he]
  | some y => simp [run_choice, he]

theorem run_absent_eq_some : (absent e).run rules s = some (t, ns) ↔
    e.run rules s = none ∧ t = s ∧ ns = [] := by
  cases he : e.run rules s with
  | none => simp [run_absent, he, eq_comm]
  | some y => simp [run_absent, he]

theorem run_absent_eq_none : (absent e).run rules s = none ↔ ∃ x, e.run rules s = some x := by
  cases he : e.run rules s with
  | none => simp [run_absent, he]
  | some y => simp [run_absent, he]

theorem run_maybe_eq_some : (maybe e).run rules s = some (t, ns) ↔
    e.run rules s = some (t, ns) ∨ e.run rules s = none ∧ t = s ∧ ns = [] := by
  rw [maybe, run_choice_eq_some, run_empty]
  simp [eq_comm]

theorem run_present_eq_some : (present e).run rules s = some (t, ns) ↔
    (∃ x, e.run rules s = some x) ∧ t = s ∧ ns = [] := by
  rw [present, run_absent_eq_some, run_absent_eq_none]

theorem run_exactly_eq_some {c : Char} :
    (exactly c).run rules s = some (t, ns) ↔ s = c :: t ∧ ns = [] := by
  simp [exactly, run_char_eq_some]

theorem run_exactly_cons (c : Char) : (exactly c).run rules (c :: s) = some (s, []) :=
  run_exactly_eq_some.2 ⟨rfl, rfl⟩

theorem run_exactly_eq_none {c : Char} : (exactly c).run rules s = none ↔ s.head? ≠ some c := by
  cases s <;> simp [exactly, run_char_nil, run_char_cons]

theorem run_any_eq_some : any.run rules s = some (t, ns) ↔ (∃ c, s = c :: t) ∧ ns = [] := by
  simp [any, run_char_eq_some]

theorem run_any_eq_none : any.run rules s = none ↔ s = [] := by
  cases s <;> simp [any, run_char_nil, run_char_cons]

theorem run_butNot_eq_some : (butNot e).run rules s = some (t, ns) ↔
    e.run rules s = none ∧ (∃ c, s = c :: t) ∧ ns = [] := by
  rw [butNot, run_seq_eq_some]
  constructor
  · rintro ⟨u, ms, ks, hu, hv, rfl⟩
    obtain ⟨he, rfl, rfl⟩ := run_absent_eq_some.1 hu
    obtain ⟨hc, rfl⟩ := run_any_eq_some.1 hv
    exact ⟨he, hc, rfl⟩
  · rintro ⟨he, hc, rfl⟩
    exact ⟨s, [], [], run_absent_eq_some.2 ⟨he, rfl, rfl⟩, run_any_eq_some.2 ⟨hc, rfl⟩, rfl⟩

theorem run_exactlyAll_eq_some (cs : List Char) :
    (seqs (cs.map exactly)).run rules s = some (t, ns) ↔ s = cs ++ t ∧ ns = [] := by
  induction cs generalizing s with
  | nil => simp [seqs, run_empty, eq_comm]
  | cons c cs ih =>
      cases cs with
      | nil => simpa using run_exactly_eq_some
      | cons d cs =>
          simp only [List.map_cons, seqs_cons_cons, run_seq_eq_some, run_exactly_eq_some] at ih ⊢
          constructor
          · rintro ⟨u, ms, ks, ⟨rfl, rfl⟩, hu, rfl⟩
            obtain ⟨rfl, rfl⟩ := ih.1 hu
            exact ⟨rfl, rfl⟩
          · rintro ⟨rfl, rfl⟩
            exact ⟨d :: cs ++ t, [], [], ⟨rfl, rfl⟩, ih.2 ⟨rfl, rfl⟩, rfl⟩

theorem run_literal_eq_some {w : String} :
    (literal w).run rules s = some (t, ns) ↔ s = w.toList ++ t ∧ ns = [] :=
  run_exactlyAll_eq_some w.toList

theorem run_literal_eq_none {w : String} : (literal w).run rules s = none ↔ ¬ w.toList <+: s := by
  constructor
  · rintro h ⟨t, rfl⟩
    rw [run_literal_eq_some.2 ⟨rfl, rfl⟩] at h
    cases h
  · intro h
    cases hr : (literal w).run rules s with
    | none => rfl
    | some x => exact absurd ⟨x.1, (run_literal_eq_some.1 hr).1.symm⟩ h

theorem run_choices_nil : (choices []).run rules s = none := rfl

/-- All that a choice between several expressions matches is matched by one of them. -/
theorem run_choices_some {es : List Expression} {x : List Char × List Node}
    (h : (choices es).run rules s = some x) : ∃ e ∈ es, e.run rules s = some x := by
  induction es with
  | nil => cases h
  | cons e es ih =>
      cases es with
      | nil => exact ⟨e, List.mem_cons_self, h⟩
      | cons f es =>
          rcases run_choice_eq_some.1 h with h | ⟨-, h⟩
          · exact ⟨e, List.mem_cons_self, h⟩
          · obtain ⟨g, hg, hr⟩ := ih h
            exact ⟨g, List.mem_cons_of_mem _ hg, hr⟩

theorem run_choices_of (es : List Expression) {fs : List Expression} {x : List Char × List Node}
    (hes : ∀ f ∈ es, f.run rules s = none) (h : e.run rules s = some x) :
    (choices (es ++ e :: fs)).run rules s = some x := by
  induction es with
  | nil =>
      cases fs with
      | nil => exact h
      | cons f fs => exact run_choice_eq_some.2 (Or.inl h)
  | cons f es ih =>
      have hrest := ih fun g hg => hes g (List.mem_cons_of_mem f hg)
      cases es <;> exact run_choice_eq_some.2 (Or.inr ⟨hes f List.mem_cons_self, hrest⟩)

theorem run_choices_eq_none {es : List Expression} :
    (choices es).run rules s = none ↔ ∀ e ∈ es, e.run rules s = none := by
  induction es with
  | nil => simp [run_choices_nil]
  | cons e es ih =>
      cases es with
      | nil => simp
      | cons f es => rw [choices_cons_cons, run_choice_eq_none, ih]; simp

end Expression

end SelectorSyntax.Grammar
