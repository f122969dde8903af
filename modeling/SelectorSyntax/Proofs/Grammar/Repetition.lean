import SelectorSyntax.Proofs.Grammar.Laws

namespace SelectorSyntax.Grammar

/-- Whether the form of an expression tells that its matches all take at least one character. -/
def Expression.takes : Expression → Bool
  | empty | star _ | absent _ => false
  | char _ => true
  | seq e f => e.takes || f.takes
  | choice e f => e.takes && f.takes
  | call r => r.takes

/-- Whether an expression calls no rule, so that its matches are no more than text. -/
def Expression.callFree : Expression → Bool
  | empty | char _ => true
  | seq e f | choice e f => e.callFree && f.callFree
  | star e | absent e => e.callFree
  | call _ => false

/-- What is asked of the matchers that an expression calls: they take from the front of the text,
and those rules that have to take something do. -/
structure Lawful (rules : Rule → Matcher) : Prop where
  suffix : ∀ {r s t ns}, rules r s = some (t, ns) → t <:+ s
  shorter : ∀ {r s t ns}, r.takes = true → rules r s = some (t, ns) → t.length < s.length

/-- Matches in a row, as many as there are. -/
inductive Iterates (m : Matcher) : List Char → List Char → List Node → Prop
  | stop {s} : m s = none → Iterates m s s []
  | next {s t u ns ms} : m s = some (t, ns) → Iterates m t u ms → Iterates m s u (ns ++ ms)

theorem repeated_suffix {m : Matcher} (hm : ∀ {s t ns}, m s = some (t, ns) → t <:+ s) (n : Nat)
    (s : List Char) : (repeated m n s).1 <:+ s := by
  induction n generalizing s with
  | zero => exact List.suffix_rfl
  | succ n ih =>
      rw [repeated]
      split
      next => exact List.suffix_rfl
      next t ns ht => exact (ih t).trans (hm ht)

theorem repeated_nil {m : Matcher} (hm : ∀ {s t ns}, m s = some (t, ns) → ns = []) (n : Nat)
    (s : List Char) :
    (repeated m n s).2 = [] := by
  induction n generalizing s with
  | zero => rfl
  | succ n ih =>
      rw [repeated]
      split
      next => rfl
      next t ns ht => simp [hm ht, ih t]

/-- Enough rounds make a repetition run until its body fails. -/
theorem iterates_repeated {m : Matcher} (hm : ∀ {s t ns}, m s = some (t, ns) → t.length < s.length)
    (n : Nat) (s : List Char) (hn : s.length < n) :
    Iterates m s (repeated m n s).1 (repeated m n s).2 := by
  induction n generalizing s with
  | zero => exact absurd hn (Nat.not_lt_zero _)
  | succ n ih =>
      rw [repeated]
      split
      next hs => exact .stop hs
      next t ns ht => exact .next ht (ih t (Nat.lt_of_lt_of_le (hm ht) (Nat.le_of_lt_succ hn)))

theorem Iterates.unique {m : Matcher} {s t u : List Char} {ns ms : List Node} (h : Iterates m s t ns)
    (h' : Iterates m s u ms) : t = u ∧ ns = ms := by
  induction h generalizing u ms with
  | stop hs =>
      cases h' with
      | stop => exact ⟨rfl, rfl⟩
      | next hs' => rw [hs] at hs'; cases hs'
  | next hs _ ih =>
      cases h' with
      | stop hs' => rw [hs] at hs'; cases hs'
      | next hs' h' =>
          rw [hs] at hs'
          cases hs'
          obtain ⟨rfl, rfl⟩ := ih h'
          exact ⟨rfl, rfl⟩

theorem Iterates.suffix {m : Matcher} (hm : ∀ {s t ns}, m s = some (t, ns) → t <:+ s) {s t : List Char}
    {ns : List Node} (h : Iterates m s t ns) : t <:+ s := by
  induction h with
  | stop => exact List.suffix_rfl
  | next hs _ ih => exact ih.trans (hm hs)

theorem Iterates.done {m : Matcher} {s t : List Char} {ns : List Node} (h : Iterates m s t ns) : m t = none := by
  induction h with
  | stop hs => exact hs
  | next _ _ ih => exact ih

namespace Expression

variable {rules : Rule → Matcher} {s t : List Char} {ns : List Node}

theorem run_suffix (hl : Lawful rules) (e : Expression) (h : e.run rules s = some (t, ns)) :
    t <:+ s := by
  induction e generalizing s t ns with
  | empty =>
      cases h
      exact List.suffix_rfl
  | char p =>
      obtain ⟨c, -, rfl, -⟩ := run_char_eq_some.1 h
      exact List.suffix_cons c t
  | seq e f ihe ihf =>
      obtain ⟨u, ms, ks, hu, hv, -⟩ := run_seq_eq_some.1 h
      exact (ihf hv).trans (ihe hu)
  | choice e f ihe ihf =>
      rcases run_choice_eq_some.1 h with h | ⟨-, h⟩
      · exact ihe h
      · exact ihf h
  | star e ih =>
      have ht : (repeated (e.run rules) (rounds s) s).1 = t := congrArg Prod.fst (Option.some.inj h)
      exact ht ▸ repeated_suffix ih _ s
  | absent e =>
      obtain ⟨-, rfl, -⟩ := run_absent_eq_some.1 h
      exact List.suffix_rfl
  | call r => exact hl.suffix h

theorem run_shorter (hl : Lawful rules) (e : Expression) (he : e.takes = true)
    (h : e.run rules s = some (t, ns)) : t.length < s.length := by
  induction e generalizing s t ns with
  | empty | star | absent => cases he
  | char p =>
      obtain ⟨c, -, rfl, -⟩ := run_char_eq_some.1 h
      exact Nat.lt_succ_self _
  | seq e f ihe ihf =>
      obtain ⟨u, ms, ks, hu, hv, -⟩ := run_seq_eq_some.1 h
      rcases Bool.or_eq_true_iff.1 he with he | hf
      · exact Nat.lt_of_le_of_lt (run_suffix hl f hv).length_le (ihe he hu)
      · exact Nat.lt_of_lt_of_le (ihf hf hv) (run_suffix hl e hu).length_le
  | choice e f ihe ihf =>
      obtain ⟨he, hf⟩ := Bool.and_eq_true_iff.1 he
      rcases run_choice_eq_some.1 h with h | ⟨-, h⟩
      · exact ihe he h
      · exact ihf hf h
  | call r => exact hl.shorter he h

theorem run_callFree {e : Expression} (he : e.callFree = true) (h : e.run rules s = some (t, ns)) :
    ns = [] := by
  induction e generalizing s t ns with
  | empty =>
      cases h
      rfl
  | char p => exact (run_char_eq_some.1 h).choose_spec.2.2
  | seq e f ihe ihf =>
      obtain ⟨he, hf⟩ := Bool.and_eq_true_iff.1 he
      obtain ⟨u, ms, ks, hu, hv, rfl⟩ := run_seq_eq_some.1 h
      rw [ihe he hu, ihf hf hv, List.append_nil]
  | choice e f ihe ihf =>
      obtain ⟨he, hf⟩ := Bool.and_eq_true_iff.1 he
      rcases run_choice_eq_some.1 h with h | ⟨-, h⟩
      · exact ihe he h
      · exact ihf hf h
  | star e ih =>
      have hn : (repeated (e.run rules) (rounds s) s).2 = ns := congrArg Prod.snd (Option.some.inj h)
      exact hn ▸ repeated_nil (ih he) _ s
  | absent e => exact (run_absent_eq_some.1 h).2.2
  | call r => cases he

/-- A repetition whose rounds take something is its rounds in a row. -/
theorem run_star_eq_some (hl : Lawful rules) {e : Expression} (he : e.takes = true) :
    (star e).run rules s = some (t, ns) ↔ Iterates (e.run rules) s t ns := by
  have hr : Iterates (e.run rules) s (repeated (e.run rules) (rounds s) s).1
      (repeated (e.run rules) (rounds s) s).2 :=
    iterates_repeated (run_shorter hl e he) (rounds s) s (Nat.lt_succ_self _)
  constructor
  · intro h
    have hx : repeated (e.run rules) (rounds s) s = (t, ns) := Option.some.inj h
    rwa [hx] at hr
  · intro h
    obtain ⟨rfl, rfl⟩ := h.unique hr
    rfl

theorem exists_iterates (hl : Lawful rules) {e : Expression} (he : e.takes = true) (s : List Char) :
    ∃ t ns, Iterates (e.run rules) s t ns := ⟨_, _, (run_star_eq_some hl he).1 rfl⟩

theorem exists_iterates_nil (hl : Lawful rules) {e : Expression} (he : e.takes = true) (hc : e.callFree = true)
    (s : List Char) : ∃ t, Iterates (e.run rules) s t [] := by
  obtain ⟨t, ns, hi⟩ := exists_iterates hl he s
  have hstar := (run_star_eq_some hl he).2 hi
  obtain rfl : ns = [] := run_callFree (e := star e) hc hstar
  exact ⟨t, hi⟩

theorem run_star_ne_none {e : Expression} : (star e).run rules s ≠ none := Option.some_ne_none _

theorem run_plus_eq_some (hl : Lawful rules) {e : Expression} (he : e.takes = true) :
    (plus e).run rules s = some (t, ns) ↔
      Iterates (e.run rules) s t ns ∧ ∃ x, e.run rules s = some x := by
  rw [plus, run_seq_eq_some]
  constructor
  · rintro ⟨u, ms, ks, hu, hv, rfl⟩
    exact ⟨.next hu ((run_star_eq_some hl he).1 hv), _, hu⟩
  · rintro ⟨h, x, hx⟩
    cases h with
    | stop hs => rw [hs] at hx; cases hx
    | next hu hv => exact ⟨_, _, _, hu, (run_star_eq_some hl he).2 hv, rfl⟩

theorem run_plus_eq_none {e : Expression} : (plus e).run rules s = none ↔ e.run rules s = none := by
  rw [plus, run_seq_eq_none]
  constructor
  · rintro (h | ⟨u, ms, -, hu⟩)
    · exact h
    · exact absurd hu run_star_ne_none
  · exact Or.inl

end Expression

theorem Rule.body_takes {r : Rule} (h : r.takes = true) : (body r).takes = true := by
  cases r <;> first | rfl | cases h

theorem Rule.fst_wrap (r : Rule) (s : List Char) (x : List Char × List Node) :
    (r.wrap s x).1 = x.1 := by
  obtain ⟨t, ns⟩ := x
  rw [wrap]
  split <;> rfl

theorem Rule.runWithin_succ_eq_some {n : Nat} {r : Rule} {s t : List Char} {ns : List Node} :
    runWithin (n + 1) r s = some (t, ns) ↔
      ∃ ms, (body r).run (runWithin n) s = some (t, ms) ∧ r.wrap s (t, ms) = (t, ns) := by
  rw [runWithin, Option.map_eq_some_iff]
  constructor
  · rintro ⟨⟨u, ms⟩, hu, hx⟩
    have ht : u = t := by simpa only [hx] using (r.fst_wrap s (u, ms)).symm
    subst ht
    exact ⟨ms, hu, hx⟩
  · rintro ⟨ms, hu, hx⟩
    exact ⟨(t, ms), hu, hx⟩

theorem Rule.lawful_runWithin (n : Nat) : Lawful (runWithin n) := by
  induction n with
  | zero =>
      constructor
      · intro r s t ns h
        cases h
      · intro r s t ns _ h
        cases h
  | succ n ih =>
      constructor
      · intro r s t ns h
        obtain ⟨ms, hu, -⟩ := runWithin_succ_eq_some.1 h
        exact (body r).run_suffix ih hu
      · intro r s t ns hr h
        obtain ⟨ms, hu, -⟩ := runWithin_succ_eq_some.1 h
        exact (body r).run_shorter ih (body_takes hr) hu

end SelectorSyntax.Grammar
