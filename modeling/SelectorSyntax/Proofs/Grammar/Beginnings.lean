import SelectorSyntax.Proofs.Grammar.Unfold

namespace SelectorSyntax.Grammar

namespace Expression

/-- Whether the form of an expression tells that it matches every text that begins with `c`. -/
def accepts (c : Char) : Expression → Bool
  | char p => p c
  | choice e f => e.accepts c || f.accepts c
  | _ => false

/-- Whether an expression may match in front of `c` and take nothing. -/
def passes (c : Char) : Expression → Bool
  | empty | star _ => true
  | char _ => false
  | seq e f => e.passes c && f.passes c
  | choice e f => e.passes c || f.passes c
  | absent e => !e.accepts c
  | call r => !r.takes

/-- Whether an expression may match and take `c` first, as its form tells with what is told of the rules
that it calls. -/
def begins (c : Char) (calls : Rule → Bool) : Expression → Bool
  | empty | absent _ => false
  | char p => p c
  | seq e f => e.begins c calls || e.passes c && f.begins c calls
  | choice e f => e.begins c calls || f.begins c calls
  | star e => e.begins c calls
  | call r => calls r

variable {rules : Rule → Matcher} {calls : Rule → Bool} {c : Char} {s t : List Char} {ns : List Node}

theorem run_accepts {e : Expression} (he : e.accepts c = true) : e.run rules (c :: s) ≠ none := by
  induction e with
  | char p =>
      rw [accepts] at he
      rw [run_char_cons, if_pos he]
      exact Option.some_ne_none _
  | choice e f ihe ihf =>
      rw [Ne, run_choice_eq_none]
      rintro ⟨hn, hn'⟩
      rcases Bool.or_eq_true_iff.1 he with he | hf
      · exact ihe he hn
      · exact ihf hf hn'
  | empty | seq | star | absent | call => cases he

theorem repeated_begins {m : Matcher} {P : Prop}
    (h : ∀ {t ns}, m (c :: s) = some (t, ns) → t = c :: s ∨ P) (n : Nat) :
    (repeated m n (c :: s)).1 = c :: s ∨ P := by
  induction n with
  | zero => exact Or.inl rfl
  | succ n ih =>
      rw [repeated]
      split
      next => exact Or.inl rfl
      next t ns ht =>
        rcases h ht with rfl | hp
        · exact ih
        · exact Or.inr hp

/-- A match takes nothing or begins with a character that the expression may begin with. -/
theorem run_begins
    (hr : ∀ {r t ns}, rules r (c :: s) = some (t, ns) → t = c :: s ∧ r.takes = false ∨ calls r = true)
    (e : Expression) (h : e.run rules (c :: s) = some (t, ns)) :
    t = c :: s ∧ e.passes c = true ∨ e.begins c calls = true := by
  induction e generalizing t ns with
  | empty =>
      cases h
      exact Or.inl ⟨rfl, rfl⟩
  | char p =>
      obtain ⟨d, hd, hs, -⟩ := run_char_eq_some.1 h
      cases hs
      exact Or.inr hd
  | seq e f ihe ihf =>
      obtain ⟨u, ms, ks, hu, hv, -⟩ := run_seq_eq_some.1 h
      rw [passes, begins]
      rcases ihe hu with ⟨rfl, he⟩ | he
      · rcases ihf hv with ⟨rfl, hf⟩ | hf
        · exact Or.inl ⟨rfl, by simp [he, hf]⟩
        · exact Or.inr (by simp [he, hf])
      · exact Or.inr (by simp [he])
  | choice e f ihe ihf =>
      rw [passes, begins]
      rcases run_choice_eq_some.1 h with h | ⟨-, h⟩
      · rcases ihe h with ⟨rfl, he⟩ | he
        · exact Or.inl ⟨rfl, by simp [he]⟩
        · exact Or.inr (by simp [he])
      · rcases ihf h with ⟨rfl, hf⟩ | hf
        · exact Or.inl ⟨rfl, by simp [hf]⟩
        · exact Or.inr (by simp [hf])
  | star e ih =>
      have ht : (repeated (e.run rules) (rounds (c :: s)) (c :: s)).1 = t := congrArg Prod.fst (Option.some.inj h)
      have hm {u : List Char} {ms : List Node} (hu : e.run rules (c :: s) = some (u, ms)) :
          u = c :: s ∨ e.begins c calls = true := (ih hu).imp_left And.left
      rw [← ht]
      exact (repeated_begins hm _).imp_left fun ht => ⟨ht, rfl⟩
  | absent e =>
      obtain ⟨hn, rfl, -⟩ := run_absent_eq_some.1 h
      refine Or.inl ⟨rfl, ?_⟩
      rw [passes, Bool.not_eq_true']
      exact Bool.eq_false_iff.2 fun he => run_accepts he hn
  | call r =>
      rw [passes, begins]
      exact (hr h).imp_left fun hx => ⟨hx.1, by simp [hx.2]⟩

end Expression

/-- The characters that a match of a rule may begin with, found by following its calls so many deep. -/
def Rule.beginsWithin (c : Char) : Nat → Rule → Bool
  | 0, _ => true
  | n + 1, r => (body r).begins c (beginsWithin c n)

/-- A rule calls only rules of a smaller rank where it starts, so its rank tells how deep its calls are. -/
def Rule.begins (c : Char) (r : Rule) : Bool := beginsWithin c (r.rank + 1) r

theorem Rule.begins_of_run {r : Rule} {c : Char} {s t : List Char} {ns : List Node}
    (h : r.run (c :: s) = some (t, ns)) :
    t = c :: s ∧ r.takes = false ∨ r.begins c = true := by
  have key (n : Nat) : ∀ {r t ns}, r.run (c :: s) = some (t, ns) →
      t = c :: s ∧ r.takes = false ∨ beginsWithin c n r = true := by
    induction n with
    | zero => exact fun _ => Or.inr rfl
    | succ n ih =>
        intro r t ns h
        obtain ⟨ms, hm, -⟩ := Rule.run_eq_some.1 h
        rcases Expression.run_begins ih (body r) hm with ⟨rfl, -⟩ | hb
        · refine Or.inl ⟨rfl, Bool.eq_false_iff.2 fun hr => ?_⟩
          exact absurd (Rule.lawful_run.shorter hr h) (Nat.lt_irrefl _)
        · exact Or.inr hb
  exact key _ h

namespace Expression

variable {e : Expression} {c : Char} (s : List Char)

/-- What has to take something fails where it may not begin. -/
theorem run_eq_none_of_begins (he : e.takes = true) (hc : e.begins c (Rule.begins c) = false) :
    e.run Rule.run (c :: s) = none := by
  cases h : e.run Rule.run (c :: s) with
  | none => rfl
  | some x =>
      rcases run_begins Rule.begins_of_run e h with ⟨ht, -⟩ | hb
      · exact absurd (run_shorter Rule.lawful_run e he h) (by simp [ht])
      · rw [hc] at hb
        cases hb

theorem run_nil_eq_none (he : e.takes = true) : e.run Rule.run [] = none := by
  cases h : e.run Rule.run [] with
  | none => rfl
  | some x => exact absurd (run_shorter Rule.lawful_run e he h) (Nat.not_lt_zero _)

end Expression

end SelectorSyntax.Grammar
