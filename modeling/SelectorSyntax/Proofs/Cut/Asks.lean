import SelectorSyntax.Proofs.Grammar.Farthest

namespace SelectorSyntax.Grammar

open Relation Expression

/-! What is tried at the end of a text. -/

/-- A rule that fails at the end of a text, and is noted where it fails. -/
def Rule.isWanted (q : Rule) : Bool := q.takes && !q.isSilent && decide (q ≠ .nthName)

namespace Expression

/-- While the expression is matched, a rule is tried at the end of the text that fails and is noted there. -/
def Asks (e : Expression) (s : List Char) : Prop := ∃ p v q, e.Calls s p v ∧ Reach p v q [] ∧ q.isWanted = true

variable {e f : Expression} {r : Rule} {s t : List Char}

theorem asks_nil (hr : r.isWanted = true) : (call r).Asks [] := ⟨r, [], r, .call, .here, hr⟩

theorem Asks.call (h : (body r).Asks s) : (call r).Asks s := by
  obtain ⟨p, v, q, hp, hq, hw⟩ := h
  exact ⟨r, s, q, .call, .call hp hq, hw⟩

theorem Asks.first (h : e.Asks s) : (seq e f).Asks s := by
  obtain ⟨p, v, q, hp, hq⟩ := h
  exact ⟨p, v, q, .first hp, hq⟩

theorem Asks.second (ht : e.Consumes s t) (h : f.Asks t) : (seq e f).Asks s := by
  obtain ⟨ns, ht⟩ := ht
  obtain ⟨p, v, q, hp, hq⟩ := h
  exact ⟨p, v, q, .second ht hp, hq⟩

theorem Asks.left (h : e.Asks s) : (choice e f).Asks s := by
  obtain ⟨p, v, q, hp, hq⟩ := h
  exact ⟨p, v, q, .left hp, hq⟩

theorem Asks.right (hn : e.run Rule.run s = none) (h : f.Asks s) : (choice e f).Asks s := by
  obtain ⟨p, v, q, hp, hq⟩ := h
  exact ⟨p, v, q, .right hn hp, hq⟩

theorem Asks.maybe (h : e.Asks s) : (maybe e).Asks s := h.left

theorem Asks.round (ht : ReflTransGen e.Consumes s t) (h : e.Asks t) : (star e).Asks s := by
  induction ht using ReflTransGen.head_induction_on with
  | refl =>
      obtain ⟨p, v, q, hp, hq⟩ := h
      exact ⟨p, v, q, .round hp, hq⟩
  | head hs _ ih =>
      obtain ⟨ns, hs⟩ := hs
      obtain ⟨p, v, q, hp, hq⟩ := ih
      exact ⟨p, v, q, .again hs hp, hq⟩

theorem Asks.choices (es : List Expression) {fs : List Expression} (hn : ∀ g ∈ es, g.run Rule.run s = none) (h : e.Asks s) :
    (Expression.choices (es ++ e :: fs)).Asks s := by
  induction es with
  | nil =>
      cases fs with
      | nil => exact h
      | cons => exact h.left
  | cons g es ih =>
      obtain ⟨hg, hes⟩ := List.forall_mem_cons.1 hn
      have hrest := ih hes
      cases hx : es ++ e :: fs with
      | nil => simp at hx
      | cons x xs =>
          rw [hx] at hrest
          rw [List.cons_append, hx]
          exact hrest.right hg

end Expression

namespace Rule

variable {r q : Rule} {s u : List Char}

/-- No failure is in front of the end where a rule is asked for. -/
theorem left_of_asks (h : (Expression.call r).Asks s) : (r.attempts s).left = 0 := by
  obtain ⟨p, v, q, hp, hq, hw⟩ := h
  obtain ⟨rfl, rfl⟩ := calls_call.1 hp
  rw [isWanted, Bool.and_eq_true, Bool.and_eq_true, Bool.not_eq_true', decide_eq_true_eq] at hw
  obtain ⟨⟨htakes, hs⟩, hn⟩ := hw
  exact Nat.le_zero.1 (left_attempts_le hq hs hn (run_nil_eq_none (e := Expression.call q) htakes))

theorem failure_place_of_asks (h : (Expression.call r).Asks s) : (r.failure s).place = [] := by
  rw [failure, left_of_asks h, Nat.sub_zero, List.drop_length]

end Rule

end SelectorSyntax.Grammar
