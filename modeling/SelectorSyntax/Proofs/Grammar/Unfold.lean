import SelectorSyntax.Proofs.Grammar.Repetition

namespace SelectorSyntax.Grammar

/-- A rule calls only rules of a smaller rank where it starts. Behind its first character a rule may
be of the same rank or one higher, since groups contain arguments and arguments contain groups. -/
def Rule.rank : Rule → Nat
  | selectors => 5
  | selectorList => 4
  | complexSelector | text => 3
  | compoundSelector | simpleSelector | argument | argItem | pseudoTail => 2
  | combinator | typeSelector | idSelector | classSelector | attributeSelector | attributeValue
  | pseudoElement | pseudoClass | nthArguments | arguments | argGroup => 1
  | _ => 0

/-- Whether the rules an expression calls have a rank below `n`, or below `n + 2` behind a character. -/
def Expression.ranked : Nat → Expression → Bool
  | _, empty | _, char _ => true
  | n, seq e f => e.ranked n && f.ranked (if e.takes then n + 2 else n)
  | n, choice e f => e.ranked n && f.ranked n
  | n, star e | n, absent e => e.ranked n
  | n, call r => decide (r.rank < n)

theorem Rule.rank_le (r : Rule) : r.rank ≤ 5 := by cases r <;> decide

theorem Rule.body_ranked (r : Rule) : (body r).ranked r.rank = true := by cases r <;> rfl

/-- Matchers that agree where the rank of a rule and what is left of the text are small enough. -/
def Agree (rules rules' : Rule → Matcher) (bound : Nat) : Prop :=
  ∀ r t, 2 * t.length + r.rank < bound → rules r t = rules' r t

theorem Agree.mono {rules rules' : Rule → Matcher} {m n : Nat} (h : Agree rules rules' n) (hm : m ≤ n) :
    Agree rules rules' m := fun r t ht => h r t (Nat.lt_of_lt_of_le ht hm)

theorem repeated_congr {m m' : Matcher} {k : Nat}
    (hs : ∀ {s t ns}, m s = some (t, ns) → t.length ≤ s.length)
    (h : ∀ s, s.length ≤ k → m s = m' s) (n : Nat) (s : List Char) (hk : s.length ≤ k) :
    repeated m n s = repeated m' n s := by
  induction n generalizing s with
  | zero => rfl
  | succ n ih =>
      rw [repeated, repeated, ← h s hk]
      cases hm : m s with
      | none => rfl
      | some x => simp only [ih x.1 (Nat.le_trans (hs hm) hk)]

/-- An expression cannot tell matchers apart that agree on all it calls. -/
theorem Expression.run_congr {rules rules' : Rule → Matcher} (hl : Lawful rules) (e : Expression)
    {n : Nat}
    {s : List Char} (he : e.ranked n = true) (h : Agree rules rules' (2 * s.length + n)) :
    e.run rules s = e.run rules' s := by
  induction e generalizing n s with
  | empty => rfl
  | char p => cases s <;> rfl
  | seq e f ihe ihf =>
      obtain ⟨he, hf⟩ := Bool.and_eq_true_iff.1 he
      rw [run_seq, run_seq, ← ihe he h]
      cases hu : e.run rules s with
      | none => rfl
      | some x =>
          have hx := (run_suffix hl e hu).length_le
          simp only
          rw [ihf hf]
          apply h.mono
          split
          next ht =>
            have hx' := run_shorter hl e ht hu
            omega
          next => omega
  | choice e f ihe ihf =>
      obtain ⟨he, hf⟩ := Bool.and_eq_true_iff.1 he
      rw [run_choice, run_choice, ← ihe he h, ← ihf hf h]
  | star e ih =>
      rw [run_star, run_star, repeated_congr (fun hu => (run_suffix hl e hu).length_le) _ _ s (Nat.le_refl _)]
      intro u hu
      exact ih he (h.mono (by omega))
  | absent e ih => rw [run_absent, run_absent, ← ih he h]
  | call r => exact h r s (by have hr := of_decide_eq_true he; omega)

/-- Once it suffices, the depth allowed makes no difference. -/
theorem Rule.runWithin_eq (m n : Nat) (r : Rule) (s : List Char) (hm : 2 * s.length + r.rank < m)
    (hn : 2 * s.length + r.rank < n) : runWithin m r s = runWithin n r s := by
  induction m generalizing n r s with
  | zero => exact absurd hm (Nat.not_lt_zero _)
  | succ m ih =>
      cases n with
      | zero => exact absurd hn (Nat.not_lt_zero _)
      | succ n =>
          have ha : Agree (runWithin m) (runWithin n) (2 * s.length + r.rank) :=
            fun q t hq => ih n q t (by omega) (by omega)
          rw [runWithin, runWithin, Expression.run_congr (lawful_runWithin m) (body r) r.body_ranked ha]

theorem Rule.lawful_run : Lawful Rule.run :=
  ⟨fun h => (lawful_runWithin _).suffix h, fun hr h => (lawful_runWithin _).shorter hr h⟩

/-- A rule is matched by matching its body, the rules in it included. -/
theorem Rule.run_eq (r : Rule) (s : List Char) :
    r.run s = ((body r).run Rule.run s).map (r.wrap s) := by
  have ha : Agree (runWithin (2 * s.length + 11)) Rule.run (2 * s.length + r.rank) := by
    intro q t hq
    have hr := r.rank_le
    have hq' := q.rank_le
    exact runWithin_eq _ _ q t (by omega) (by rw [nesting]; omega)
  rw [run, nesting, runWithin, Expression.run_congr (lawful_runWithin _) (body r) r.body_ranked ha]

theorem Rule.run_eq_some {r : Rule} {s t : List Char} {ns : List Node} : r.run s = some (t, ns) ↔
    ∃ ms, (body r).run Rule.run s = some (t, ms) ∧ r.wrap s (t, ms) = (t, ns) := by
  rw [run_eq, Option.map_eq_some_iff]
  constructor
  · rintro ⟨⟨u, ms⟩, hu, hx⟩
    have ht : u = t := by simpa only [hx] using (r.fst_wrap s (u, ms)).symm
    subst ht
    exact ⟨ms, hu, hx⟩
  · rintro ⟨ms, hu, hx⟩
    exact ⟨(t, ms), hu, hx⟩

theorem Rule.run_eq_none {r : Rule} {s : List Char} :
    r.run s = none ↔ (body r).run Rule.run s = none := by
  rw [run_eq, Option.map_eq_none_iff]

/-- A rule that is not silent makes one node of what its body made. -/
theorem Rule.run_node {r : Rule} (hr : r.isSilent = false) {s t : List Char} {ns : List Node} :
    r.run s = some (t, ns) ↔
      ∃ ms, (body r).run Rule.run s = some (t, ms) ∧ ns = [⟨r, s, t, if r.isToken then [] else ms⟩] := by
  simp only [run_eq_some, wrap, hr, Bool.false_eq_true, if_false, Prod.mk.injEq, true_and]
  exact exists_congr fun ms => and_congr_right fun _ => eq_comm

theorem Rule.run_endOfInput_eq_some {s t : List Char} {ns : List Node} :
    endOfInput.run s = some (t, ns) ↔ s = [] ∧ t = [] ∧ ns = [⟨endOfInput, [], [], []⟩] := by
  rw [Rule.run_node rfl]
  constructor
  · rintro ⟨ms, hm, rfl⟩
    obtain ⟨hn, rfl, rfl⟩ := Expression.run_absent_eq_some.1 hm
    obtain rfl := Expression.run_any_eq_none.1 hn
    exact ⟨rfl, rfl, rfl⟩
  · rintro ⟨rfl, rfl, rfl⟩
    exact ⟨[], rfl, rfl⟩

end SelectorSyntax.Grammar
