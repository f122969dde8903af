import SelectorSyntax.Proofs.Grammar.Unfold

namespace SelectorSyntax.Grammar

/-- The calls of rules that an expression makes where it is matched: every rule that is tried, whether
or not it matches and whether or not what it matched is taken back later. -/
inductive Expression.Calls : Expression → List Char → Rule → List Char → Prop
  | call {r s} : Calls (call r) s r s
  | first {e f s r u} : Calls e s r u → Calls (seq e f) s r u
  | second {e f s t ns r u} : e.run Rule.run s = some (t, ns) → Calls f t r u → Calls (seq e f) s r u
  | left {e f s r u} : Calls e s r u → Calls (choice e f) s r u
  | right {e f s r u} : e.run Rule.run s = none → Calls f s r u → Calls (choice e f) s r u
  | round {e s r u} : Calls e s r u → Calls (star e) s r u
  | again {e s t ns r u} : e.run Rule.run s = some (t, ns) → Calls (star e) t r u → Calls (star e) s r u
  | absent {e s r u} : Calls e s r u → Calls (absent e) s r u

namespace Expression

variable {e f : Expression} {r q : Rule} {s u : List Char}

theorem calls_call : (call r).Calls s q u ↔ q = r ∧ u = s := by
  constructor
  · intro h
    cases h
    exact ⟨rfl, rfl⟩
  · rintro ⟨rfl, rfl⟩
    exact .call

theorem calls_seq : (seq e f).Calls s r u ↔
    e.Calls s r u ∨ ∃ t ns, e.run Rule.run s = some (t, ns) ∧ f.Calls t r u := by
  constructor
  · intro h
    cases h with
    | first h => exact Or.inl h
    | second ht h => exact Or.inr ⟨_, _, ht, h⟩
  · rintro (h | ⟨t, ns, ht, h⟩)
    · exact .first h
    · exact .second ht h

theorem calls_choice : (choice e f).Calls s r u ↔
    e.Calls s r u ∨ e.run Rule.run s = none ∧ f.Calls s r u := by
  constructor
  · intro h
    cases h with
    | left h => exact Or.inl h
    | right hs h => exact Or.inr ⟨hs, h⟩
  · rintro (h | ⟨hs, h⟩)
    · exact .left h
    · exact .right hs h

theorem not_calls_callFree (he : e.callFree = true) : ¬ e.Calls s r u := by
  intro h
  induction h with
  | call => cases he
  | first _ ih | left _ ih => exact ih (Bool.and_eq_true_iff.1 he).1
  | second _ _ ih | right _ _ ih => exact ih (Bool.and_eq_true_iff.1 he).2
  | round _ ih | again _ _ ih | absent _ ih => exact ih he

/-- A call has a smaller rank than its caller, or is made behind a character. -/
theorem Calls.bound {n : Nat} (h : e.Calls s r u) (he : e.ranked n = true) :
    2 * u.length + r.rank < 2 * s.length + n := by
  induction h generalizing n with
  | call =>
      have hr := of_decide_eq_true he
      omega
  | first _ ih | left _ ih => exact ih (Bool.and_eq_true_iff.1 he).1
  | right _ _ ih => exact ih (Bool.and_eq_true_iff.1 he).2
  | @second e f s t ns r u ht _ ih =>
      have hu := ih (Bool.and_eq_true_iff.1 he).2
      have hle := (run_suffix Rule.lawful_run e ht).length_le
      split at hu
      next htakes =>
        have hlt := run_shorter Rule.lawful_run e htakes ht
        omega
      next => omega
  | round _ ih | absent _ ih => exact ih he
  | @again e s t ns r u ht _ ih =>
      have hu := ih he
      have hle := (run_suffix Rule.lawful_run e ht).length_le
      omega

end Expression

/-- The grammar never calls itself without end, so that what calls hand on to their caller holds. -/
theorem Rule.call_induction {P : Rule → List Char → Prop}
    (h : ∀ r s, (∀ q u, (body r).Calls s q u → P q u) → P r s) (r : Rule) (s : List Char) : P r s := by
  generalize hn : 2 * s.length + r.rank = n
  induction n using Nat.strongRecOn generalizing r s with
  | ind n ih =>
      refine h r s fun q u hq => ih _ ?_ q u rfl
      rw [← hn]
      exact hq.bound r.body_ranked

/-- A rule that is being matched, and where its match began. -/
structure Activation where
  rule : Rule
  place : List Char

/-- The rules that are being matched at one moment while `root` is matched at the front of `input`,
the one called last first. -/
inductive CallStack (root : Rule) (input : List Char) : List Activation → Prop
  | start : CallStack root input [⟨root, input⟩]
  | call {a stack r u} : CallStack root input (a :: stack) → (body a.rule).Calls a.place r u →
      CallStack root input (⟨r, u⟩ :: a :: stack)

/-- The rules that match a pair of brackets and what stands between them. -/
def Rule.isBracketed : Rule → Bool
  | attributeSelector | nthArguments | arguments | argGroup => true
  | _ => false

theorem Rule.callFree_of_isToken {r : Rule} (hr : r.isToken = true) : (body r).callFree = true := by
  cases r <;> first | rfl | cases hr

theorem Rule.isBracketed_of_isToken {r : Rule} (hr : r.isToken = true) : r.isBracketed = false := by
  cases r <;> first | rfl | cases hr

/-- Whether the opening bracket of a rule stands at its place, so that its match gets past it. -/
def Activation.isOpen : Activation → Bool
  | ⟨.attributeSelector, '[' :: _⟩ | ⟨.nthArguments, '(' :: _⟩ | ⟨.arguments, '(' :: _⟩
  | ⟨.argGroup, '(' :: _⟩ | ⟨.argGroup, '[' :: _⟩ => true
  | _ => false

/-- How many calls are active past their opening bracket. -/
def openCalls (stack : List Activation) : Nat := stack.countP Activation.isOpen

mutual

/-- How many pairs of brackets a match has inside one another. -/
def Node.nesting : Node → Nat
  | ⟨rule, _, _, children⟩ => Node.nestingOfAll children + if rule.isBracketed then 1 else 0

def Node.nestingOfAll : List Node → Nat
  | [] => 0
  | n :: ns => max n.nesting (Node.nestingOfAll ns)

end

@[simp] theorem Node.nestingOfAll_nil : Node.nestingOfAll [] = 0 := rfl

@[simp] theorem Node.nestingOfAll_cons (n : Node) (ns : List Node) :
    Node.nestingOfAll (n :: ns) = max n.nesting (Node.nestingOfAll ns) := rfl

@[simp] theorem Node.nestingOfAll_append (ns ms : List Node) :
    Node.nestingOfAll (ns ++ ms) = max (Node.nestingOfAll ns) (Node.nestingOfAll ms) := by
  induction ns with
  | nil => simp
  | cons n ns ih => simp [ih, Nat.max_assoc]

theorem Node.nesting_mk (r : Rule) (s t : List Char) (ns : List Node) :
    Node.nesting ⟨r, s, t, ns⟩ = Node.nestingOfAll ns + if r.isBracketed then 1 else 0 := rfl

theorem Node.nesting_plain {r : Rule} (hr : r.isBracketed = false) (s t : List Char) (ns : List Node) :
    Node.nesting ⟨r, s, t, ns⟩ = Node.nestingOfAll ns := by
  rw [nesting_mk, hr]
  rfl

theorem Node.nesting_bracketed {r : Rule} (hr : r.isBracketed = true) (s t : List Char)
    (ns : List Node) :
    Node.nesting ⟨r, s, t, ns⟩ = Node.nestingOfAll ns + 1 := by
  rw [nesting_mk, hr]
  rfl

theorem Node.nesting_le_of_mem {n : Node} {ns : List Node} (h : n ∈ ns) :
    n.nesting ≤ Node.nestingOfAll ns := by
  induction ns with
  | nil => cases h
  | cons m ns ih =>
      rcases List.mem_cons.1 h with rfl | h
      · exact Nat.le_max_left _ _
      · exact Nat.le_trans (ih h) (Nat.le_max_right _ _)

end SelectorSyntax.Grammar
