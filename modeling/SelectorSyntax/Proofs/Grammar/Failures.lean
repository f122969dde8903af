import SelectorSyntax.Proofs.Grammar.Tracking

namespace SelectorSyntax.Grammar

/-- Nothing stands among the attempts for having matched, and something stands there for having failed as soon
as a place behind the start has been tried in vain. -/
structure Attempts.Telling (a : Attempts) (n : Nat) : Prop where
  negatives : a.negatives = []
  positives : a.left < n → a.positives ≠ []

namespace Expression

/-- Nothing that an expression tries makes the attempts tell less. -/
def Tells (e : Expression) (s : List Char) : Prop :=
  ∀ n a, a.Telling n → (e.track Rule.run Rule.track false s a).Telling n

/-- Whether rules are only called to match. -/
def affirms : Expression → Bool
  | empty | char _ | call _ => true
  | seq e f | choice e f => e.affirms && f.affirms
  | star e => e.affirms
  | absent e => e.callFree

end Expression

variable {e f : Expression} {r q : Rule} {s t u : List Char} {ns : List Node} {a a' : Attempts} {b : Bool} {n : Nat}

/-! What is noted of a rule. -/

theorem Attempts.Telling.start (s : List Char) : (Attempts.start s).Telling s.length :=
  ⟨rfl, fun h => absurd h (Nat.lt_irrefl _)⟩

/-- A rule that failed adds nothing to what must not match, and itself where nothing else is noted. -/
theorem Attempts.Telling.record (ha : a.Telling n) (ha' : a'.Telling n) : (a.record a' false r s).Telling n := by
  rw [Attempts.record]
  split
  next => exact ha'
  next =>
    split
    next => exact ha'
    next =>
      refine ⟨?_, fun _ => by simp⟩
      rw [if_neg Bool.false_ne_true, negativesAt, ha.negatives, ite_self]

/-- A rule that was tried in vain leaves the farthest place there or behind. -/
theorem Rule.left_track_le (hr : r.isSilent = false) (h : (r.run s).isSome = b) :
    (r.track b s a).left ≤ s.length := by
  rw [track_eq, hr, h, beq_self_eq_true]
  exact Nat.le_trans (Nat.le_of_eq (Attempts.left_record _ _ b r s)) (Nat.min_le_right _ _)

theorem Attempts.positives_record (ha' : a'.Telling s.length) : (a.record a' false r s).positives ≠ [] := by
  rw [Attempts.record]
  split
  next hcount =>
    intro hnil
    simp only [countAt, positivesAt, negativesAt, hnil, ha'.negatives, ite_self, List.length_nil] at hcount
    exact absurd hcount (Nat.succ_ne_zero _).symm
  next =>
    split
    next h => exact ha'.positives h
    next => simp

/-! What is tried one after another. -/

namespace Expression

theorem tells_callFree (he : e.callFree = true) (s : List Char) : e.Tells s := by
  intro n a ha
  rwa [(Quiet.callFree he).track_eq rfl]

theorem tells_seq (he : e.Tells s) (hf : ∀ t ns, e.run Rule.run s = some (t, ns) → f.Tells t) : (seq e f).Tells s := by
  intro n a ha
  rw [track]
  cases hu : e.run Rule.run s with
  | none => exact he n a ha
  | some x => exact hf x.1 x.2 hu n _ (he n a ha)

theorem tells_choice (he : e.Tells s) (hf : e.run Rule.run s = none → f.Tells s) : (choice e f).Tells s := by
  intro n a ha
  rw [track]
  cases hu : e.run Rule.run s with
  | none => exact hf hu n _ (he n a ha)
  | some x => exact he n a ha

/-- What only calls rules to match tells what they tell. -/
theorem tells_of_affirms (he : e.affirms = true) (h : ∀ q u, e.Calls s q u → (call q).Tells u) : e.Tells s := by
  induction e generalizing s with
  | empty | char => exact tells_callFree rfl s
  | seq e f ihe ihf =>
      obtain ⟨he, hf⟩ := Bool.and_eq_true_iff.1 he
      exact tells_seq (ihe he fun q u hq => h q u (.first hq)) fun t ns ht => ihf hf fun q u hq => h q u (.second ht hq)
  | choice e f ihe ihf =>
      obtain ⟨he, hf⟩ := Bool.and_eq_true_iff.1 he
      exact tells_choice (ihe he fun q u hq => h q u (.left hq)) fun hn => ihf hf fun q u hq => h q u (.right hn hq)
  | star e ih =>
      intro n a ha
      rw [track]
      generalize rounds s = k
      induction k generalizing s a with
      | zero => exact ha
      | succ k ihk =>
          have hround := ih he (fun q u hq => h q u (.round hq)) n a ha
          rw [trackRepeated]
          cases hu : e.run Rule.run s with
          | none => exact hround
          | some x => exact ihk (fun q u hq => h q u (.again hu hq)) _ hround
  | absent e => exact tells_callFree (e := absent e) he s
  | call r => exact h r s .call

/-- A name that takes a number is noted for having matched only where nothing farther on has been noted. -/
theorem track_absent_nthName (h : ∀ x, Rule.nthName.run s = some x → a.left < s.length) :
    (absent (call .nthName)).track Rule.run Rule.track false s a = a := by
  have hbody : (body .nthName).track Rule.run Rule.track true s a = a := (Quiet.callFree rfl).track_eq rfl
  rw [track, track, Rule.track_eq, Bool.not_false, hbody]
  cases hn : Rule.nthName.run s with
  | none => rfl
  | some x => exact Attempts.record_of_lt (h x hn)

/-- Where a name that takes a number stands after all, the number was tried farther on, and in vain. -/
theorem tells_pseudoTail (h : ∀ q u, pseudoTail.Calls s q u → (call q).Tells u) : pseudoTail.Tells s := by
  intro n a ha
  have hplain : (seq (call .nthName) (call .nthArguments)).Tells s :=
    tells_of_affirms rfl fun q u hq => h q u (.left hq)
  rw [pseudoTail, track]
  generalize hb : (seq (call .nthName) (call .nthArguments)).track Rule.run Rule.track false s a = b
  have htells : b.Telling n := hb ▸ hplain n a ha
  cases hrun : (seq (call .nthName) (call .nthArguments)).run Rule.run s with
  | some x => exact htells
  | none =>
      have hleft (x : List Char × List Node) (hx : Rule.nthName.run s = some x) : b.left < s.length := by
        have hnone : Rule.nthArguments.run x.1 = none := by
          rcases run_seq_eq_none.1 hrun with hn | ⟨t, ns, ht, hn⟩
          · cases hn.symm.trans hx
          · cases ht.symm.trans hx
            exact hn
        have hname : (call .nthName).run Rule.run s = some x := hx
        rw [← hb, track, hname]
        exact Nat.lt_of_le_of_lt (Rule.left_track_le rfl (by rw [hnone]; rfl)) (Rule.lawful_run.shorter rfl hx)
      have hrest : (seqs [call .ident, maybe (call .arguments)]).affirms = true := rfl
      show ((seq (absent (call .nthName)) (seqs [call .ident, maybe (call .arguments)])).track _ _ _ _ _).Telling n
      rw [track, track_absent_nthName hleft]
      cases hu : (absent (call .nthName)).run Rule.run s with
      | none => exact htells
      | some x => exact tells_of_affirms hrest (fun q u hq => h q u (.right hrun (.second hu hq))) n b htells

end Expression

namespace Rule

theorem tells_body (h : ∀ q u, (body r).Calls s q u → (Expression.call q).Tells u) : (body r).Tells s := by
  have hmarked {e : Expression} (he : e.callFree = true)
      (h : ∀ q u, (Expression.seq e Grammar.pseudoTail).Calls s q u → (Expression.call q).Tells u) :
      (Expression.seq e Grammar.pseudoTail).Tells s :=
    Expression.tells_seq (Expression.tells_callFree he s) fun t ns ht =>
      Expression.tells_pseudoTail fun q u hq => h q u (.second ht hq)
  cases r with
  | pseudoElement | pseudoClass => exact hmarked rfl h
  | pseudoTail => exact Expression.tells_pseudoTail h
  | _ => exact Expression.tells_of_affirms rfl h

theorem tells (r : Rule) (s : List Char) : (Expression.call r).Tells s := by
  induction r, s using Rule.call_induction with
  | h r s ih =>
      intro n a ha
      have hbody := tells_body ih n a ha
      rw [Expression.track, track_eq]
      split
      next => exact hbody
      next => exact ha.record hbody

/-- No rule is reported for having matched. -/
theorem negatives_failure (r : Rule) (s : List Char) : (r.failure s).negatives = [] := by
  have ha : (r.attempts s).negatives = [] := (r.tells s _ _ (.start s)).negatives
  rw [failure, ha]
  exact List.filter_eq_nil_iff.2 fun q _ => by simp

/-- Some rule is reported for having failed. -/
theorem positives_failure (hr : r.isSilent = false) (h : r.run s = none) : (r.failure s).positives ≠ [] := by
  have hbody := tells_body (fun q u _ => q.tells u) (s := s) (r := r) _ _ (.start s)
  have hattempts :
      r.attempts s = (Attempts.start s).record ((body r).track run track false s (.start s)) false r s := by
    show r.track false s (.start s) = _
    rw [track_eq, hr, h]
    rfl
  have ha : (r.attempts s).positives ≠ [] := hattempts ▸ Attempts.positives_record hbody
  obtain ⟨q, hq⟩ := List.exists_mem_of_ne_nil _ ha
  exact List.ne_nil_of_mem (List.mem_filter.2 ⟨q.mem_all, by simpa using hq⟩)

end Rule

end SelectorSyntax.Grammar
