import SelectorSyntax.Grammar.Attempts
import SelectorSyntax.Proofs.Grammar.Calls

namespace SelectorSyntax.Grammar

/-- Trackers that agree where the rank of a rule and what is left of the text are small enough. -/
def AgreeTrack (trackers trackers' : Rule → Tracker) (bound : Nat) : Prop :=
  ∀ r b t a, 2 * t.length + r.rank < bound → trackers r b t a = trackers' r b t a

/-- The attempts after a rule was tried. -/
def Rule.track (r : Rule) : Tracker := fun b s a => trackWithin (nesting s) r b s a

/-- The rules that are tried when a rule is, and where: the rule itself and those that its body calls. -/
inductive Reach : Rule → List Char → Rule → List Char → Prop
  | here {r s} : Reach r s r s
  | call {r s p v q u} : (body r).Calls s p v → Reach p v q u → Reach r s q u

namespace Expression

/-- All rules are tried where more than `n` characters are left. -/
def Quiet (e : Expression) (s : List Char) (n : Nat) : Prop :=
  ∀ p v q u, e.Calls s p v → Reach p v q u → n < u.length

/-- Of all that is tried, only `r` is where no more than `n` characters are left, and there in vain. -/
def Leaves (e : Expression) (s : List Char) (n : Nat) (r : Rule) : Prop :=
  ∀ a, n < a.left → e.track Rule.run Rule.track false s a = ⟨n, [r], []⟩

end Expression

variable {rules rules' : Rule → Matcher} {trackers trackers' : Rule → Tracker} {e f : Expression} {r q : Rule}
  {s t u : List Char} {ns : List Node} {a a' : Attempts} {b : Bool} {n k : Nat}

/-! Enough depth makes no difference to the attempts either. -/

theorem AgreeTrack.mono (h : AgreeTrack trackers trackers' n) (hk : k ≤ n) : AgreeTrack trackers trackers' k :=
  fun r b t a ht => h r b t a (Nat.lt_of_lt_of_le ht hk)

theorem trackRepeated_congr {m m' : Matcher} {track track' : Tracker}
    (hs : ∀ {s t ns}, m s = some (t, ns) → t.length ≤ s.length)
    (hm : ∀ s, s.length ≤ k → m s = m' s) (h : ∀ b s a, s.length ≤ k → track b s a = track' b s a) (n : Nat)
    (b : Bool) (s : List Char) (a : Attempts) (hk : s.length ≤ k) :
    trackRepeated m track n b s a = trackRepeated m' track' n b s a := by
  induction n generalizing s a with
  | zero => rfl
  | succ n ih =>
      rw [trackRepeated, trackRepeated, ← hm s hk, ← h b s a hk]
      cases hu : m s with
      | none => rfl
      | some x => exact ih x.1 _ (Nat.le_trans (hs hu) hk)

theorem Expression.track_congr (hl : Lawful rules) (e : Expression) (he : e.ranked n = true)
    (h : Agree rules rules' (2 * s.length + n)) (ht : AgreeTrack trackers trackers' (2 * s.length + n)) :
    e.track rules trackers b s a = e.track rules' trackers' b s a := by
  induction e generalizing n s a b with
  | empty | char => rfl
  | seq e f ihe ihf =>
      obtain ⟨he, hf⟩ := Bool.and_eq_true_iff.1 he
      rw [track, track, ← ihe he h ht, ← run_congr hl e he h]
      cases hu : e.run rules s with
      | none => rfl
      | some x =>
          have hx := (run_suffix hl e hu).length_le
          have hle : 2 * x.1.length + (if e.takes then n + 2 else n) ≤ 2 * s.length + n := by
            split
            next htakes =>
              have hx' := run_shorter hl e htakes hu
              omega
            next => omega
          exact ihf hf (h.mono hle) (ht.mono hle)
  | choice e f ihe ihf =>
      obtain ⟨he, hf⟩ := Bool.and_eq_true_iff.1 he
      rw [track, track, ← ihe he h ht, ← run_congr hl e he h]
      cases e.run rules s with
      | none => exact ihf hf h ht
      | some x => rfl
  | star e ih =>
      rw [track, track]
      refine trackRepeated_congr (fun hu => (run_suffix hl e hu).length_le) ?_ ?_ _ b s a (Nat.le_refl _)
      · intro u hu
        exact run_congr hl e he (h.mono (by omega))
      · intro b u a hu
        exact ih he (h.mono (by omega)) (ht.mono (by omega))
  | absent e ih => exact ih he h ht
  | call r => exact ht r b s a (by have hr := of_decide_eq_true he; omega)

theorem Rule.trackWithin_eq (m n : Nat) (r : Rule) (b : Bool) (s : List Char) (a : Attempts)
    (hm : 2 * s.length + r.rank < m) (hn : 2 * s.length + r.rank < n) :
    trackWithin m r b s a = trackWithin n r b s a := by
  induction m generalizing n r b s a with
  | zero => exact absurd hm (Nat.not_lt_zero _)
  | succ m ih =>
      cases n with
      | zero => exact absurd hn (Nat.not_lt_zero _)
      | succ n =>
          have ha : Agree (runWithin m) (runWithin n) (2 * s.length + r.rank) :=
            fun q t hq => runWithin_eq m n q t (by omega) (by omega)
          have ht : AgreeTrack (trackWithin m) (trackWithin n) (2 * s.length + r.rank) :=
            fun q c t a hq => ih n q c t a (by omega) (by omega)
          rw [trackWithin, trackWithin, Expression.track_congr (lawful_runWithin m) (body r) r.body_ranked ha ht,
            Expression.run_congr (lawful_runWithin m) (body r) r.body_ranked ha]

/-- A rule is tried by trying its body, and is noted where it was tried in vain. -/
theorem Rule.track_eq (r : Rule) (b : Bool) (s : List Char) (a : Attempts) : r.track b s a =
    if r.isSilent || !((r.run s).isSome == b) then (body r).track Rule.run Rule.track b s a
    else a.record ((body r).track Rule.run Rule.track b s a) b r s := by
  have ha : Agree (runWithin (2 * s.length + 11)) Rule.run (2 * s.length + r.rank) := by
    intro q t hq
    have hr := r.rank_le
    have hq' := q.rank_le
    exact runWithin_eq _ _ q t (by omega) (by rw [nesting]; omega)
  have ht : AgreeTrack (trackWithin (2 * s.length + 11)) Rule.track (2 * s.length + r.rank) := by
    intro q c t a hq
    have hr := r.rank_le
    have hq' := q.rank_le
    exact trackWithin_eq _ _ q c t a (by omega) (by rw [nesting]; omega)
  have hsome : (r.run s).isSome = ((body r).run Rule.run s).isSome := by rw [run_eq, Option.isSome_map]
  rw [track, nesting, trackWithin, Expression.track_congr (lawful_runWithin _) (body r) r.body_ranked ha ht,
    Expression.run_congr (lawful_runWithin _) (body r) r.body_ranked ha, hsome]

/-! What has been tried farther on stays. -/

theorem Attempts.record_of_lt (h : a'.left < s.length) : a.record a' b r s = a' := by
  rw [record, if_pos h, ite_self]

/-- The farthest place is the one from before, or the one where the rule was tried if that is farther on. -/
theorem Attempts.left_record (a a' : Attempts) (b : Bool) (r : Rule) (s : List Char) :
    (a.record a' b r s).left = min a'.left s.length := by
  rw [record]
  split
  next h =>
    have hs : s.length = a'.left := by
      refine Decidable.byContradiction fun hs => ?_
      rw [countAt, positivesAt, if_neg hs, negativesAt, if_neg hs] at h
      exact absurd h (Nat.succ_ne_zero _).symm
    rw [hs, Nat.min_self]
  next =>
    split
    next h => exact (Nat.min_eq_left (Nat.le_of_lt h)).symm
    next h => split <;> exact (Nat.min_eq_right (Nat.not_lt.1 h)).symm

namespace Expression

/-- What an expression keeps of the attempts if all the rules that it calls keep it. -/
theorem track_keeps {P : Attempts → Prop}
    (h : ∀ q u, e.Calls s q u → ∀ b a, P a → P (q.track b u a)) (ha : P a) :
    P (e.track Rule.run Rule.track b s a) := by
  induction e generalizing s a b with
  | empty | char => exact ha
  | seq e f ihe ihf =>
      have he := ihe (b := b) (fun q u hq => h q u (.first hq)) ha
      rw [track]
      cases hu : e.run Rule.run s with
      | none => exact he
      | some x => exact ihf (fun q u hq => h q u (.second hu hq)) he
  | choice e f ihe ihf =>
      have he := ihe (b := b) (fun q u hq => h q u (.left hq)) ha
      rw [track]
      cases hu : e.run Rule.run s with
      | none => exact ihf (fun q u hq => h q u (.right hu hq)) he
      | some x => exact he
  | star e ih =>
      rw [track]
      generalize rounds s = n
      induction n generalizing s a with
      | zero => exact ha
      | succ n ihn =>
          have he := ih (b := b) (fun q u hq => h q u (.round hq)) ha
          rw [trackRepeated]
          cases hu : e.run Rule.run s with
          | none => exact he
          | some x => exact ihn (fun q u hq => h q u (.again hu hq)) he
  | absent e ih => exact ih (fun q u hq => h q u (.absent hq)) ha
  | call r => exact h r s .call b a ha

end Expression

/-- What noting a rule keeps at every place where one is tried is kept when a rule is tried. -/
theorem Rule.track_keeps {P : Attempts → Prop}
    (h : ∀ q u, Reach r s q u → ∀ a a' b, P a → P a' → P (a.record a' b q u)) (ha : P a) : P (r.track b s a) := by
  induction r, s using Rule.call_induction generalizing a b with
  | h r s ih =>
      have hbody : P ((body r).track Rule.run Rule.track b s a) := by
        refine Expression.track_keeps (fun q u hq b a ha => ?_) ha
        exact ih q u hq (fun p v hp => h p v (.call hq hp)) ha
      rw [track_eq]
      split
      next => exact hbody
      next => exact h r s .here _ _ _ ha hbody

/-- The farthest place where a rule was tried in vain is one where it was tried. -/
theorem Rule.left_attempts (r : Rule) (s : List Char) :
    ∃ q u, Reach r s q u ∧ (r.attempts s).left = u.length := by
  refine Rule.track_keeps (P := fun a => ∃ q u, Reach r s q u ∧ a.left = u.length) (b := false) ?_
    ⟨r, s, .here, rfl⟩
  intro q u hq a a' b ha ha'
  rw [Attempts.left_record]
  rcases Nat.le_total a'.left u.length with h | h
  · rw [Nat.min_eq_left h]
    exact ha'
  · exact ⟨q, u, hq, Nat.min_eq_right h⟩

/-! One rule tried in vain farther on than any other. -/

namespace Expression

theorem Quiet.call (h : (body q).Quiet s n) (hs : n < s.length) : (call q).Quiet s n := by
  intro p v r u hp hr
  obtain ⟨rfl, rfl⟩ := calls_call.1 hp
  cases hr with
  | here => exact hs
  | call hc hr => exact h _ _ _ _ hc hr

theorem Quiet.callFree (he : e.callFree = true) : e.Quiet s n :=
  fun _ _ _ _ hp => absurd hp (not_calls_callFree he)

theorem Quiet.seq_of_none (h : e.Quiet s n) (hn : e.run Rule.run s = none) : (seq e f).Quiet s n := by
  intro p v r u hp hr
  rcases calls_seq.1 hp with hp | ⟨t, ns, ht, -⟩
  · exact h _ _ _ _ hp hr
  · rw [hn] at ht
    cases ht

theorem Quiet.choice (he : e.Quiet s n) (hf : f.Quiet s n) : (choice e f).Quiet s n := by
  intro p v r u hp hr
  rcases calls_choice.1 hp with hp | ⟨-, hp⟩
  · exact he _ _ _ _ hp hr
  · exact hf _ _ _ _ hp hr

theorem Quiet.absent (h : e.Quiet s n) : (absent e).Quiet s n := by
  intro p v r u hp hr
  cases hp with
  | absent hp => exact h _ _ _ _ hp hr

theorem Quiet.left (h : e.Quiet s n) (ha : n < a.left) : n < (e.track Rule.run Rule.track b s a).left := by
  refine track_keeps (P := fun a => n < a.left) (fun p v hp b a ha => ?_) ha
  refine Rule.track_keeps (P := fun a => n < a.left) (fun q u hq a a' b _ ha' => ?_) ha
  rw [Attempts.left_record]
  exact Nat.lt_min.2 ⟨ha', h p v q u hp hq⟩

theorem Quiet.track_eq (h : e.Quiet s n) (ha : a.left = n) : e.track Rule.run Rule.track b s a = a := by
  refine track_keeps (P := (· = a)) (fun p v hp b x hx => ?_) rfl
  refine Rule.track_keeps (P := (· = a)) (fun q u hq x y b _ hy => ?_) hx
  rw [hy]
  exact Attempts.record_of_lt (ha ▸ h p v q u hp hq)

theorem Leaves.seq_first (h : e.Leaves s n r) (hn : e.run Rule.run s = none) : (seq e f).Leaves s n r := by
  intro a ha
  rw [track, h a ha, hn]

theorem Leaves.seq_second (he : e.Quiet s n) (hu : e.run Rule.run s = some (t, ns)) (h : f.Leaves t n r) :
    (seq e f).Leaves s n r := by
  intro a ha
  rw [track, hu]
  exact h _ (he.left ha)

theorem Leaves.choice_first (h : e.Leaves s n r) (hn : e.run Rule.run s = none) (hf : f.Quiet s n) :
    (choice e f).Leaves s n r := by
  intro a ha
  rw [track, h a ha, hn]
  exact hf.track_eq rfl

theorem Leaves.choice_second (he : e.Quiet s n) (hn : e.run Rule.run s = none) (h : f.Leaves s n r) :
    (choice e f).Leaves s n r := by
  intro a ha
  rw [track, hn]
  exact h _ (he.left ha)

theorem Leaves.call (h : (body q).Leaves s n r) (hs : n < s.length) : (call q).Leaves s n r := by
  intro a ha
  have hbody := h a ha
  rw [track, Rule.track_eq, hbody]
  split
  next => rfl
  next => exact Attempts.record_of_lt hs

/-- A rule that calls none is tried in vain by itself. -/
theorem Leaves.vain (hq : (body q).callFree = true) (hs : q.isSilent = false) (hn : q.run s = none) :
    (Expression.call q).Leaves s s.length q := by
  intro a ha
  have hbody : (body q).track Rule.run Rule.track false s a = a :=
    (Quiet.callFree (n := a.left) hq).track_eq rfl
  have hpositives : a.positivesAt s = [] := if_neg (Nat.ne_of_lt ha)
  have hnegatives : a.negativesAt s = [] := if_neg (Nat.ne_of_lt ha)
  rw [track, Rule.track_eq, hbody, hs, hn, Attempts.record, hpositives, hnegatives, if_neg (by simp),
    if_neg (Nat.ne_of_lt (Nat.lt_succ_self _)), if_neg (Nat.lt_asymm ha)]
  rfl

end Expression

/-- What a rule failed with that has left one rule farther on than any other. -/
theorem Rule.failure_of_leaves (h : (Expression.call r).Leaves s n q) (hn : n < s.length) :
    r.failure s = ⟨s.drop (s.length - n), Attempts.inOrder [q], []⟩ := by
  have ha : r.attempts s = ⟨n, [q], []⟩ := h (.start s) hn
  have hnil : Attempts.inOrder [] = [] := List.filter_eq_nil_iff.2 fun r _ => by simp
  rw [failure, ha, hnil]

end SelectorSyntax.Grammar
