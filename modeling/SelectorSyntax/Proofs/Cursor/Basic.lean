import Mathlib.Data.PFun
import SelectorSyntax.Proofs.Diagnostic.Offsets
import SelectorSyntax.Text.Reader

namespace SelectorSyntax.Text.Cursor

open Place

/-- Why a computation over byte offsets is broken off: it takes the text from behind its end or from inside a
character, or it needs an offset that no machine number can hold. -/
inductive Fault
  | outside
  | inside
  | overflow
deriving DecidableEq, Repr

/-- A computation may be broken off, and it may go on for ever. -/
abbrev Run := ExceptT Fault Part

/-- What a round of a loop comes to. -/
inductive Turn (σ α : Type)
  | again (state : σ)
  | done (result : α)

variable {σ α : Type} {limit : Nat} {input : List Char}

/-- How a loop goes on behind a round: with a result, which a fault is as well, or with another state. -/
def Turn.toSum : Except Fault (Turn σ α) → Except Fault α ⊕ σ
  | .ok (.again t) => .inr t
  | .ok (.done a) => .inl (.ok a)
  | .error e => .inl (.error e)

/-- Nothing bounds the rounds: a loop that goes on for ever has no result. -/
def loop (round : σ → Run (Turn σ α)) : σ → Run α := PFun.fix fun s => (round s).run.map Turn.toSum

/-- A fault breaks off what would follow. -/
theorem throw_bind {β : Type} (e : Fault) (f : α → Run β) : (throw e : Run α) >>= f = throw e := Part.bind_some _ _

theorem mem_turn {round : σ → Run (Turn σ α)} {s : σ} {turn : Turn σ α} (h : round s = pure turn) :
    Turn.toSum (.ok turn) ∈ (round s).run.map Turn.toSum := by
  rw [h]
  exact Part.mem_map _ (Part.mem_some _)

theorem loop_again {round : σ → Run (Turn σ α)} {s t : σ} (h : round s = pure (.again t)) :
    loop round s = loop round t :=
  PFun.fix_fwd_eq (mem_turn h)

theorem loop_done {round : σ → Run (Turn σ α)} {s : σ} {a : α} (h : round s = pure (.done a)) :
    loop round s = pure a :=
  Part.eq_some_iff.2 (PFun.fix_stop (mem_turn h))

/-- The character at an offset. There is none behind the end, and none inside a character. -/
def peek (input : List Char) (offset : Nat) : Option Char := (dropBytes? input offset).bind List.head?

/-- The text from an offset on. -/
def slice (input : List Char) (offset : Nat) : Run (List Char) :=
  match dropBytes? input offset with
  | some s => pure s
  | none => throw (if byteSize input < offset then .outside else .inside)

/-- A sum of offsets, none of which can be above `limit`. -/
def add (limit a b : Nat) : Run Nat := if a + b ≤ limit then pure (a + b) else throw .overflow

theorem add_of_le {a b : Nat} (h : a + b ≤ limit) : add limit a b = pure (a + b) := if_pos h

/-! Places of the input. -/

variable {x : Nat} {c : Char} {s t w : List Char}

theorem exists_split (h : dropBytes? input x = some s) : ∃ before, input = before ++ s ∧ byteSize before = x :=
  ⟨_, eq_takeBytes_append_of_dropBytes? h⟩

theorem size_of_place (h : dropBytes? input x = some s) : x + byteSize s = byteSize input := by
  obtain ⟨before, rfl, rfl⟩ := exists_split h
  rw [byteSize_append]

theorem isBoundary_of_place (h : dropBytes? input x = some s) : IsBoundary input x := by
  obtain ⟨before, hs, hx⟩ := exists_split h
  exact ⟨before, s, hs, hx⟩

/-- Behind what begins at a place there is a place. -/
theorem place_append (h : dropBytes? input x = some (w ++ s)) : dropBytes? input (x + byteSize w) = some s := by
  obtain ⟨before, rfl, rfl⟩ := exists_split h
  rw [← List.append_assoc, ← byteSize_append]
  exact dropBytes?_append (before ++ w) s

theorem place_cons (h : dropBytes? input x = some (c :: s)) : dropBytes? input (x + c.utf8Size) = some s :=
  place_append (w := [c]) h

theorem offsetOf_of_place (h : dropBytes? input x = some s) : offsetOf input s = x := by
  obtain ⟨before, rfl, rfl⟩ := exists_split h
  exact offsetOf_append before s

/-- What is left of a place later on is a place as well. -/
theorem place_of_suffix (h : dropBytes? input x = some s) (ht : t <:+ s) : dropBytes? input (offsetOf input t) = some t := by
  obtain ⟨before, rfl, -⟩ := exists_split h
  obtain ⟨w, rfl⟩ := ht
  rw [← List.append_assoc, offsetOf_append]
  exact dropBytes?_append (before ++ w) t

theorem place_of_tail (h : dropBytes? input x = some (c :: s)) (ht : t <:+ s) :
    dropBytes? input (offsetOf input t) = some t :=
  place_of_suffix h (ht.trans (List.suffix_cons c s))

theorem lt_offsetOf (h : dropBytes? input x = some s) (ht : t <:+ s) (hlt : t.length < s.length) :
    x < offsetOf input t := by
  obtain ⟨before, rfl, rfl⟩ := exists_split h
  obtain ⟨w, rfl⟩ := ht
  have hw : w ≠ [] := by
    rintro rfl
    exact Nat.lt_irrefl _ hlt
  have hpos := byteSize_pos hw
  rw [← List.append_assoc, offsetOf_append, byteSize_append]
  omega

/-- The readers reckon from where they begin, which comes to the same. -/
theorem advance_of_place (h : dropBytes? input x = some s) (ht : t <:+ s) :
    Reader.advance x s t = offsetOf input t := by
  obtain ⟨before, rfl, rfl⟩ := exists_split h
  obtain ⟨w, rfl⟩ := ht
  rw [Reader.advance, offsetOf_append, ← List.append_assoc, offsetOf_append, byteSize_append]

theorem restAt_of_place (h : dropBytes? input x = some s) : restAt input x = s := by
  rw [restAt, h, Option.getD_some]

theorem restAt_of_no_place (h : dropBytes? input x = none) : restAt input x = [] := by
  rw [restAt, h, Option.getD_none]

theorem peek_of_place (h : dropBytes? input x = some s) : peek input x = s.head? := by
  rw [peek, h, Option.bind_some]

theorem peek_cons (h : dropBytes? input x = some (c :: s)) : peek input x = some c := peek_of_place h

theorem peek_end (h : dropBytes? input x = some []) : peek input x = none := peek_of_place h

theorem peek_of_no_place (h : dropBytes? input x = none) : peek input x = none := by
  rw [peek, h, Option.bind_none]

theorem slice_of_place (h : dropBytes? input x = some s) : slice input x = pure s := by
  rw [slice, h]

theorem slice_of_no_place (h : dropBytes? input x = none) :
    slice input x = throw (if byteSize input < x then .outside else .inside) := by
  rw [slice, h]

/-- An offset of a place of the input is no larger than what a machine number can hold. -/
theorem add_of_place {a b : Nat} (hinput : byteSize input ≤ limit) (h : dropBytes? input (a + b) = some s) :
    add limit a b = pure (a + b) := by
  have hsize := size_of_place h
  exact add_of_le (by omega)

/-! Going forward. -/

/-- Another place of the input, further on. -/
def Ahead (input : List Char) (x y : Nat) : Prop := x < y ∧ IsBoundary input y

theorem Ahead.le_size {y : Nat} (h : Ahead input x y) : y ≤ byteSize input := by
  obtain ⟨-, s, t, rfl, rfl⟩ := h
  rw [byteSize_append]
  exact Nat.le_add_right _ _

theorem ahead_of_suffix (h : dropBytes? input x = some s) (ht : t <:+ s) (hlt : t.length < s.length) :
    Ahead input x (offsetOf input t) :=
  ⟨lt_offsetOf h ht hlt, isBoundary_of_place (place_of_suffix h ht)⟩

theorem ahead_of_tail (h : dropBytes? input x = some (c :: s)) (ht : t <:+ s) : Ahead input x (offsetOf input t) :=
  ahead_of_suffix h (ht.trans (List.suffix_cons c s)) (Nat.lt_succ_of_le ht.length_le)

theorem ahead_of_cons (h : dropBytes? input x = some (c :: s)) : Ahead input x (x + c.utf8Size) :=
  ⟨Nat.lt_add_of_pos_right c.utf8Size_pos, isBoundary_of_place (place_cons h)⟩

/-- A round of the loop ends without a fault, and if another round follows, then it begins further on in the text. -/
inductive AdvancesFrom (input : List Char) (cursor : σ → Nat) (round : σ → Run (Turn σ α)) (s : σ) : Prop
  | again {t : σ} (turn : round s = pure (.again t)) (ahead : Ahead input (cursor s) (cursor t))
  | done {a : α} (turn : round s = pure (.done a))

/-- So it is with every state. -/
def Advances (input : List Char) (cursor : σ → Nat) (round : σ → Run (Turn σ α)) : Prop :=
  ∀ s, AdvancesFrom input cursor round s

/-- The rounds come to an end, since the text does. -/
theorem Advances.exists_loop {cursor : σ → Nat} {round : σ → Run (Turn σ α)} (h : Advances input cursor round) (s : σ) :
    ∃ a, loop round s = pure a := by
  generalize hn : byteSize input - cursor s = n
  induction n using Nat.strongRecOn generalizing s with
  | ind n ih =>
      cases h s with
      | again hturn hahead =>
          have hlt := hahead.1
          have hle := hahead.le_size
          rw [loop_again hturn]
          exact ih _ (by omega) _ rfl
      | done hturn => exact ⟨_, loop_done hturn⟩

end SelectorSyntax.Text.Cursor
