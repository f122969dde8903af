import SelectorSyntax.Proofs.Grammar.Failures
import SelectorSyntax.Proofs.Grammar.Places

namespace SelectorSyntax.Grammar

open Relation Expression

/-- The rules that an expression may call, be it to match or not to. -/
def Expression.called : Expression → List Rule
  | empty | char _ => []
  | seq e f | choice e f => e.called ++ f.called
  | star e | absent e => e.called
  | call r => [r]

/-- Whether no rule but `q` is called not to match, and rounds take something. -/
def Expression.denies (q : Rule) : Expression → Bool
  | empty | char _ | call _ => true
  | seq e f | choice e f => e.denies q && f.denies q
  | star e => e.takes && e.denies q
  | absent e => e.called.all (· = q)

/-- One more rule that failed at `s`. -/
def Attempts.note (a : Attempts) (r : Rule) (s : List Char) : Attempts :=
  ⟨s.length, a.positivesAt s ++ [r], a.negativesAt s⟩

namespace Expression

/-- The expression tries no rule. -/
def Idle (e : Expression) (s : List Char) : Prop := ∀ a, e.track Rule.run Rule.track false s a = a

/-- All that is noted of the expression where nothing farther on has been tried in vain is that `q` failed. -/
def Blames (e : Expression) (s : List Char) (q : Rule) : Prop :=
  ∀ a, s.length ≤ a.left → e.track Rule.run Rule.track false s a = a.note q s

/-- Where nothing farther on has been tried in vain, `k` rules are noted of the expression. -/
def Counts (e : Expression) (s : List Char) (k : Nat) : Prop :=
  ∀ a, s.length ≤ a.left → (e.track Rule.run Rule.track false s a).left = s.length ∧
    (e.track Rule.run Rule.track false s a).countAt s = a.countAt s + k

/-- If the farthest place behind the expression is the one where `n` characters are left, `q` is among the rules
that failed there. -/
def Reports (e : Expression) (s : List Char) (n : Nat) (q : Rule) : Prop :=
  ∀ a, (e.track Rule.run Rule.track false s a).left = n → q ∈ (e.track Rule.run Rule.track false s a).positives

end Expression

variable {e f : Expression} {r q p : Rule} {s t u v : List Char} {ns : List Node} {a a' : Attempts} {b : Bool}
  {k n : Nat}

/-! The call that is the last on the way to a rule. -/

theorem Reach.tail (h : Reach r s p v) (hc : (body p).Calls v q u) : Reach r s q u := by
  induction h with
  | here => exact .call hc .here
  | call hp _ ih => exact .call hp (ih hc)

theorem Reach.cases_last (h : Reach r s q u) :
    q = r ∧ u = s ∨ ∃ p v, Reach r s p v ∧ (body p).Calls v q u := by
  induction h with
  | here => exact Or.inl ⟨rfl, rfl⟩
  | @call r s p v q u hc hr ih =>
      refine Or.inr ?_
      rcases ih with ⟨rfl, rfl⟩ | ⟨p', v', hp', hc'⟩
      · exact ⟨r, s, .here, hc⟩
      · exact ⟨p', v', .call hc hp', hc'⟩

theorem Expression.Calls.mem_called (h : e.Calls s q u) : q ∈ e.called := by
  induction h with
  | call => exact List.mem_singleton.2 rfl
  | first _ ih | left _ ih => exact List.mem_append_left _ ih
  | second _ _ ih | right _ _ ih => exact List.mem_append_right _ ih
  | round _ ih | again _ _ ih | absent _ ih => exact ih

theorem Expression.calls_star : (star e).Calls s q u ↔ ∃ t, ReflTransGen e.Consumes s t ∧ e.Calls t q u := by
  constructor
  · intro h
    generalize hx : star e = x at h
    induction h with
    | round h =>
        cases hx
        exact ⟨_, .refl, h⟩
    | again hs _ ih =>
        cases hx
        obtain ⟨t, ht, h⟩ := ih rfl
        exact ⟨t, .head ⟨_, hs⟩ ht, h⟩
    | call | first | second | left | right | absent => cases hx
  · rintro ⟨t, ht, h⟩
    induction ht using ReflTransGen.head_induction_on with
    | refl => exact .round h
    | head hs _ ih =>
        obtain ⟨ns, hs⟩ := hs
        exact .again hs ih

/-! The farthest place only ever moves on. -/

theorem Rule.left_track_le_left : (r.track b s a).left ≤ a.left := by
  refine Rule.track_keeps (P := fun x => x.left ≤ a.left) (fun q u _ x y b _ hy => ?_) (Nat.le_refl _)
  rw [Attempts.left_record]
  exact Nat.le_trans (Nat.min_le_left _ _) hy

theorem Expression.left_track_le_left : (e.track Rule.run Rule.track b s a).left ≤ a.left :=
  track_keeps (P := fun x => x.left ≤ a.left) (fun _ _ _ _ _ hx => Nat.le_trans Rule.left_track_le_left hx)
    (Nat.le_refl _)

theorem Rule.left_track_le_body (r : Rule) (s : List Char) (a : Attempts) :
    (r.track b s a).left ≤ ((body r).track Rule.run Rule.track b s a).left := by
  rw [track_eq]
  split
  next => exact Nat.le_refl _
  next =>
    rw [Attempts.left_record]
    exact Nat.min_le_left _ _

/-! Rounds one after another. -/

theorem trackRepeated_eq {m : Matcher} {track : Tracker} (hm : ∀ {s t ns}, m s = some (t, ns) → t.length < s.length)
    (k n : Nat) (s : List Char) (a : Attempts) (hk : s.length < k) (hn : s.length < n) :
    trackRepeated m track k b s a = trackRepeated m track n b s a := by
  induction k generalizing n s a with
  | zero => exact absurd hk (Nat.not_lt_zero _)
  | succ k ih =>
      cases n with
      | zero => exact absurd hn (Nat.not_lt_zero _)
      | succ n =>
          rw [trackRepeated, trackRepeated]
          cases hs : m s with
          | none => rfl
          | some x =>
              have hx := hm hs
              exact ih n x.1 _ (by omega) (by omega)

namespace Expression

theorem track_seq_none (hn : e.run Rule.run s = none) :
    (seq e f).track Rule.run Rule.track b s a = e.track Rule.run Rule.track b s a := by
  rw [track, hn]

theorem track_seq_some (ht : e.run Rule.run s = some (t, ns)) :
    (seq e f).track Rule.run Rule.track b s a =
      f.track Rule.run Rule.track b t (e.track Rule.run Rule.track b s a) := by
  rw [track, ht]

theorem track_star_none (hn : e.run Rule.run s = none) :
    (star e).track Rule.run Rule.track b s a = e.track Rule.run Rule.track b s a := by
  rw [track, rounds, trackRepeated, hn]

theorem track_star_some (he : e.takes = true) (ht : e.run Rule.run s = some (t, ns)) :
    (star e).track Rule.run Rule.track b s a =
      (star e).track Rule.run Rule.track b t (e.track Rule.run Rule.track b s a) := by
  have hlt := run_shorter Rule.lawful_run e he ht
  rw [track, rounds, trackRepeated, ht]
  exact trackRepeated_eq (run_shorter Rule.lawful_run e he) _ _ t _ hlt (Nat.lt_succ_self _)

end Expression

/-! What is tried in vain bounds the farthest place. -/

theorem Expression.left_of_calls (he : e.denies r = true) (h : e.Calls s q u) (hq : q ≠ r) (a : Attempts) :
    ∃ a', (e.track Rule.run Rule.track false s a).left ≤ (q.track false u a').left := by
  induction h generalizing a with
  | call => exact ⟨a, Nat.le_refl _⟩
  | first _ ih =>
      obtain ⟨a', ha'⟩ := ih (Bool.and_eq_true_iff.1 he).1 hq a
      refine ⟨a', Nat.le_trans ?_ ha'⟩
      rw [track]
      split
      next => exact Nat.le_refl _
      next => exact left_track_le_left
  | second ht _ ih =>
      rw [track_seq_some ht]
      exact ih (Bool.and_eq_true_iff.1 he).2 hq _
  | left _ ih =>
      obtain ⟨a', ha'⟩ := ih (Bool.and_eq_true_iff.1 he).1 hq a
      refine ⟨a', Nat.le_trans ?_ ha'⟩
      rw [track]
      split
      next => exact left_track_le_left
      next => exact Nat.le_refl _
  | right hn _ ih =>
      rw [track, hn]
      exact ih (Bool.and_eq_true_iff.1 he).2 hq _
  | @round e s q u _ ih =>
      obtain ⟨htakes, hround⟩ := Bool.and_eq_true_iff.1 he
      obtain ⟨a', ha'⟩ := ih hround hq a
      refine ⟨a', Nat.le_trans ?_ ha'⟩
      cases hs : e.run Rule.run s with
      | none => exact Nat.le_of_eq (congrArg Attempts.left (track_star_none hs))
      | some x =>
          rw [track_star_some htakes hs]
          exact left_track_le_left
  | again hs _ ih =>
      rw [track_star_some (Bool.and_eq_true_iff.1 he).1 hs]
      exact ih he hq _
  | absent h =>
      have hr := List.all_eq_true.1 he _ h.mem_called
      exact absurd (of_decide_eq_true hr) hq

namespace Rule

theorem left_of_reach (h : Reach r s q u) (hq : q ≠ .nthName) (a : Attempts) :
    ∃ a', (r.track false s a).left ≤ (q.track false u a').left := by
  have hdenies (r : Rule) : (body r).denies .nthName = true := by cases r <;> rfl
  induction h generalizing a with
  | here => exact ⟨a, Nat.le_refl _⟩
  | @call r s p v q u hc hr ih =>
      have hp : p ≠ .nthName := by
        rintro rfl
        cases hr with
        | here => exact hq rfl
        | call hc _ => exact not_calls_callFree rfl hc
      obtain ⟨a', ha'⟩ := Expression.left_of_calls (hdenies r) hc hp a
      obtain ⟨a'', ha''⟩ := ih hq a'
      exact ⟨a'', Nat.le_trans (left_track_le_body r s a) (Nat.le_trans ha' ha'')⟩

/-- No failure is in front of a rule that was tried in vain. -/
theorem left_attempts_le (h : Reach r s q u) (hs : q.isSilent = false) (hq : q ≠ .nthName) (hn : q.run u = none) :
    (r.attempts s).left ≤ u.length := by
  obtain ⟨a', ha'⟩ := left_of_reach h hq (.start s)
  exact Nat.le_trans ha' (left_track_le hs (by rw [hn]; rfl))

/-- The rules that a failure reports were tried at its place. -/
theorem reach_of_mem_positives (h : q ∈ (r.failure s).positives) : Reach r s q (r.failure s).place := by
  have hkeeps : ∀ q ∈ (r.attempts s).positives, ∃ u, u.length = (r.attempts s).left ∧ Reach r s q u := by
    refine Rule.track_keeps (P := fun a => ∀ q ∈ a.positives, ∃ u, u.length = a.left ∧ Reach r s q u) (b := false)
      (a := .start s) (fun q u hq a a' b ha ha' => ?_) (fun q hq => absurd hq List.not_mem_nil)
    have hat : ∀ p ∈ a.positivesAt u, ∃ v, v.length = u.length ∧ Reach r s p v := by
      rw [Attempts.positivesAt]
      split
      next hu => exact hu ▸ ha
      next => exact fun p hp => absurd hp List.not_mem_nil
    rw [Attempts.record]
    split
    next => exact ha'
    next =>
      split
      next => exact ha'
      next =>
        split
        next => exact hat
        next => exact List.forall_mem_append.2 ⟨hat, List.forall_mem_singleton.2 ⟨u, rfl, hq⟩⟩
  obtain ⟨u, hu, hr⟩ := hkeeps q (by simpa using (List.mem_filter.1 h).2)
  have hsuffix : u <:+ s := Expression.Reaches.suffix (e := .call r) ⟨r, s, q, .call, hr⟩
  obtain ⟨w, rfl⟩ := hsuffix
  rwa [failure, ← hu, List.length_append, Nat.add_sub_cancel, List.drop_left]

end Rule

/-! What is noted of rules that fail at one place. -/

namespace Attempts

theorem positivesAt_of_left (h : a.left = s.length) : a.positivesAt s = a.positives := if_pos h.symm

theorem countAt_note (a : Attempts) (r : Rule) (s : List Char) : (a.note r s).countAt s = a.countAt s + 1 := by
  have hn : (a.note r s).negativesAt s = a.negativesAt s := if_pos rfl
  rw [countAt, countAt, positivesAt_of_left rfl, hn, note, List.length_append, List.length_singleton]
  omega

theorem record_of_ne (hl : a'.left = s.length) (h : a'.countAt s ≠ a.countAt s + 1) :
    a.record a' false r s = a.note r s := by
  rw [record, if_neg h, if_neg (Nat.not_lt.2 (Nat.le_of_eq hl.symm))]
  rfl

theorem record_self (h : s.length ≤ a.left) : a.record a false r s = a.note r s := by
  rw [record, if_neg (Nat.ne_of_lt (Nat.lt_succ_self _)), if_neg (Nat.not_lt.2 h)]
  rfl

end Attempts

namespace Expression

theorem idle_callFree (he : e.callFree = true) (s : List Char) : e.Idle s := fun _ => (Quiet.callFree he).track_eq rfl

theorem idle_seq (he : e.callFree = true) (hn : e.run Rule.run s = none) : (seq e f).Idle s := by
  intro a
  rw [track, idle_callFree he s a, hn]

/-- A rule that tries no other is noted by itself. -/
theorem blames_idle (hs : q.isSilent = false) (hn : q.run s = none) (h : (body q).Idle s) : (call q).Blames s q := by
  intro a ha
  rw [track, Rule.track_eq, hs, hn, h a]
  exact Attempts.record_self ha

/-- One rule that failed says more than the rule that called it. -/
theorem Blames.call (h : (body r).Blames s q) (hs : r.isSilent = false) (hn : r.run s = none) :
    (call r).Blames s q := by
  intro a ha
  rw [track, Rule.track_eq, hs, hn, h a ha, Attempts.record]
  exact if_pos (Attempts.countAt_note a q s)

theorem Blames.seq (h : e.Blames s q) (hn : e.run Rule.run s = none) : (seq e f).Blames s q := by
  intro a ha
  rw [track, h a ha, hn]

theorem Blames.behind (he : e.callFree = true) (hs : e.run Rule.run s = some (s, ns)) (h : f.Blames s q) :
    (Expression.seq e f).Blames s q := by
  intro a ha
  rw [track, idle_callFree he s a, hs]
  exact h a ha

theorem Blames.counts (h : e.Blames s q) : e.Counts s 1 := by
  intro a ha
  rw [h a ha]
  exact ⟨rfl, Attempts.countAt_note a q s⟩

theorem Counts.seq (h : e.Counts s k) (hn : e.run Rule.run s = none) : (seq e f).Counts s k := by
  intro a ha
  rw [track_seq_none hn]
  exact h a ha

theorem Counts.choice (h : e.Counts s k) (hn : e.run Rule.run s = none) (hf : f.Counts s n) :
    (choice e f).Counts s (k + n) := by
  intro a ha
  obtain ⟨hl, hc⟩ := h a ha
  obtain ⟨hl', hc'⟩ := hf _ (Nat.le_of_eq hl.symm)
  rw [track, hn]
  exact ⟨hl', by rw [hc', hc, Nat.add_assoc]⟩

/-- Several rules that failed say less than the rule that called them. -/
theorem Counts.blames (h : (body r).Counts s k) (hk : k ≠ 1) (hs : r.isSilent = false) (hn : r.run s = none) :
    (Expression.call r).Blames s r := by
  intro a ha
  obtain ⟨hl, hc⟩ := h a ha
  rw [track, Rule.track_eq, hs, hn]
  exact Attempts.record_of_ne hl (by omega)

/-! What is noted stays noted. -/

theorem Quiet.seq (he : e.Quiet s n) (hf : ∀ t, e.Consumes s t → f.Quiet t n) : (seq e f).Quiet s n := by
  intro p v r u hp hr
  rcases calls_seq.1 hp with hp | ⟨t, ns, ht, hp⟩
  · exact he _ _ _ _ hp hr
  · exact hf t ⟨ns, ht⟩ _ _ _ _ hp hr

theorem Quiet.star_none (h : e.Quiet s n) (hn : e.run Rule.run s = none) : (star e).Quiet s n := by
  intro p v r u hp hr
  cases hp with
  | round hp => exact h _ _ _ _ hp hr
  | again ht _ => cases hn.symm.trans ht

theorem Quiet.track_of_left (h : e.Quiet s n) (ha : (e.track Rule.run Rule.track b s a).left = n) :
    e.track Rule.run Rule.track b s a = a := by
  refine h.track_eq (Nat.le_antisymm (Nat.not_lt.1 fun hlt => ?_) (ha ▸ left_track_le_left))
  exact absurd (h.left hlt) (by rw [ha]; exact Nat.lt_irrefl n)

theorem Blames.reports (h : e.Blames s q) : e.Reports s s.length q := by
  intro a ha
  have hle : s.length ≤ a.left := by
    rw [← ha]
    exact left_track_le_left
  rw [h a hle]
  exact List.mem_append_right _ (List.mem_singleton.2 rfl)

theorem Reports.call (h : (body r).Reports s n q) (hs : n < s.length) : (call r).Reports s n q := by
  intro a ha
  rw [track, Rule.track_eq] at ha ⊢
  split at ha
  next hc =>
    rw [if_pos hc]
    exact h a ha
  next hc =>
    rw [if_neg hc]
    rw [Attempts.left_record] at ha
    have hbody : ((body r).track Rule.run Rule.track false s a).left = n := by omega
    rw [Attempts.record_of_lt (hbody ▸ hs)]
    exact h a hbody

theorem Reports.seq_second (ht : e.run Rule.run s = some (t, ns)) (h : f.Reports t n q) : (seq e f).Reports s n q := by
  intro a
  rw [track_seq_some ht]
  exact h _

theorem Reports.seq_quiet (h : e.Reports s n q) (ht : e.run Rule.run s = some (t, ns)) (hf : f.Quiet t n) :
    (seq e f).Reports s n q := by
  intro a ha
  rw [track_seq_some ht] at ha ⊢
  have heq := hf.track_of_left ha
  rw [heq] at ha ⊢
  exact h a ha

theorem Reports.round_last (h : e.Reports s n q) (hn : e.run Rule.run s = none) : (star e).Reports s n q := by
  intro a
  rw [track_star_none hn]
  exact h a

theorem Reports.round_quiet (he : e.takes = true) (h : e.Reports s n q) (ht : e.run Rule.run s = some (t, ns))
    (hf : (star e).Quiet t n) : (star e).Reports s n q := by
  intro a ha
  rw [track_star_some he ht] at ha ⊢
  have heq := hf.track_of_left ha
  rw [heq] at ha ⊢
  exact h a ha

theorem Reports.rounds (he : e.takes = true) (hs : ReflTransGen e.Consumes s t) (h : (star e).Reports t n q) :
    (star e).Reports s n q := by
  induction hs using ReflTransGen.head_induction_on with
  | refl => exact h
  | head hs _ ih =>
      obtain ⟨ns, hs⟩ := hs
      intro a
      rw [track_star_some he hs]
      exact ih _

end Expression

end SelectorSyntax.Grammar
