import SelectorSyntax.Proofs.Grammar.Beginnings
import SelectorSyntax.Proofs.Grammar.Calls
import SelectorSyntax.Proofs.Grammar.Tree
import SelectorSyntax.Proofs.Spelling.Tokens

namespace SelectorSyntax.Selector.Spelling

open Grammar Expression Text OfNodes

variable {P : Node → Prop} {e : Expression} {r q : Rule} {b s t : List Char} {n root : Node} {ns : List Node}
  {xs ys : SelectorList}

/-! What the rules for selectors and lists of them match, and the nodes they make of it. -/

/-- A combinator and a compound. -/
abbrev link : Expression := seq (call .combinator) (call .compoundSelector)

/-- A comma and one more alternative. -/
abbrev alternative : Expression := seqs [maybe ws, call .comma, maybe ws, call .complexSelector]

/-- What is one thing and then more makes a node of the nodes of both. -/
theorem run_row_eq_some (hb : body r = seq (call q) (star e)) (hr : r.isSilent = false) (ht : r.isToken = false)
    (hq : q.isSilent = false) (he : e.takes = true) : r.run s = some (t, ns) ↔
      ∃ u n ms, q.run s = some (u, [n]) ∧ Iterates (e.run Rule.run) u t ms ∧ ns = [⟨r, s, t, n :: ms⟩] := by
  simp only [Rule.run_node hr, hb, ht, Bool.false_eq_true, if_false]
  constructor
  · rintro ⟨ks, hk, rfl⟩
    obtain ⟨u, ms, ls, hu, hl, rfl⟩ := run_seq_eq_some.1 hk
    obtain ⟨n, rfl, -⟩ := Rule.isMatch_of_run hq hu
    exact ⟨u, n, ls, hu, (run_star_eq_some Rule.lawful_run he).1 hl, rfl⟩
  · rintro ⟨u, n, ms, hu, hl, rfl⟩
    exact ⟨_, run_seq_eq_some.2 ⟨u, [n], ms, hu, (run_star_eq_some Rule.lawful_run he).2 hl, rfl⟩, rfl⟩

theorem run_complex_eq_some : Rule.complexSelector.run s = some (t, ns) ↔
    ∃ u n ms, Rule.compoundSelector.run s = some (u, [n]) ∧ Iterates (link.run Rule.run) u t ms ∧
      ns = [⟨.complexSelector, s, t, n :: ms⟩] :=
  run_row_eq_some rfl rfl rfl rfl rfl

theorem run_list_eq_some : Rule.selectorList.run s = some (t, ns) ↔
    ∃ u n ms, Rule.complexSelector.run s = some (u, [n]) ∧ Iterates (alternative.run Rule.run) u t ms ∧
      ns = [⟨.selectorList, s, t, n :: ms⟩] :=
  run_row_eq_some rfl rfl rfl rfl rfl

theorem run_alternative_eq_some : alternative.run Rule.run s = some (t, ns) ↔
    ∃ u n, Blank.skip s = ',' :: u ∧ Rule.complexSelector.run (Blank.skip u) = some (t, [n]) ∧
      ns = [⟨.comma, ',' :: u, u, []⟩, n] := by
  constructor
  · intro h
    obtain ⟨s₁, ms₁, ks₁, h₁, g₁, rfl⟩ := run_seq_eq_some.1 h
    obtain ⟨s₂, ms₂, ks₂, h₂, g₂, rfl⟩ := run_seq_eq_some.1 g₁
    obtain ⟨s₃, ms₃, ms₄, h₃, h₄, rfl⟩ := run_seq_eq_some.1 g₂
    rw [Blank.run_maybe_ws] at h₁ h₃
    cases h₁
    cases h₃
    obtain ⟨hs, rfl⟩ := (run_exactly_node (r := .comma) rfl rfl).1 h₂
    obtain ⟨n, rfl, -⟩ := Rule.isMatch_of_run (r := .complexSelector) rfl h₄
    exact ⟨s₂, n, hs, h₄, by rw [hs]; rfl⟩
  · rintro ⟨u, n, hs, h, rfl⟩
    refine run_seq_eq_some.2 ⟨_, [], _, Blank.run_maybe_ws s, ?_, rfl⟩
    rw [hs]
    refine run_seq_eq_some.2 ⟨u, _, [n], (run_exactly_node (r := .comma) rfl rfl).2 ⟨rfl, rfl⟩, ?_, rfl⟩
    exact run_seq_eq_some.2 ⟨_, [], [n], Blank.run_maybe_ws u, h, rfl⟩

theorem run_selectors_eq_some : Rule.selectors.run s = some (t, ns) ↔
    ∃ u l, Rule.selectorList.run (Blank.skip s) = some (u, [l]) ∧ Blank.skip u = [] ∧ t = [] ∧
      ns = [⟨.selectors, s, [], [l, ⟨.endOfInput, [], [], []⟩]⟩] := by
  constructor
  · intro h
    obtain ⟨ks, hk, rfl⟩ := (Rule.run_node rfl).1 h
    obtain ⟨s₁, ms₁, ks₁, h₁, g₁, rfl⟩ := run_seq_eq_some.1 hk
    obtain ⟨s₂, ms₂, ks₂, h₂, g₂, rfl⟩ := run_seq_eq_some.1 g₁
    obtain ⟨s₃, ms₃, ms₄, h₃, h₄, rfl⟩ := run_seq_eq_some.1 g₂
    rw [Blank.run_maybe_ws] at h₁ h₃
    cases h₁
    cases h₃
    obtain ⟨hu, rfl, rfl⟩ := Rule.run_endOfInput_eq_some.1 h₄
    obtain ⟨l, rfl, -⟩ := Rule.isMatch_of_run (r := .selectorList) rfl h₂
    exact ⟨s₂, l, h₂, hu, rfl, rfl⟩
  · rintro ⟨u, l, hl, hu, rfl, rfl⟩
    have hend : Rule.endOfInput.run (Blank.skip u) = some ([], [⟨.endOfInput, [], [], []⟩]) := by
      rw [hu]
      exact Rule.run_endOfInput_eq_some.2 ⟨rfl, rfl, rfl⟩
    refine (Rule.run_node rfl).2 ⟨_, run_seq_eq_some.2 ⟨_, [], _, Blank.run_maybe_ws s, ?_, rfl⟩, rfl⟩
    refine run_seq_eq_some.2 ⟨u, [l], _, hl, ?_, rfl⟩
    exact run_seq_eq_some.2 ⟨_, [], _, Blank.run_maybe_ws u, hend, rfl⟩

/-! Rows of selectors. -/

abbrev isComplex (n : Node) : Bool := n.rule = .complexSelector

/-- A complex selector is matched from one place to a later one by a node of which `P` holds. -/
def Takes (P : Node → Prop) (s t : List Char) (x : ComplexSelector) : Prop :=
  ∃ n, Rule.complexSelector.run s = some (t, [n]) ∧ complex n = .ok x ∧ P n

/-- At most `d` brackets of a node lie inside one another. -/
def Shallow (d : Nat) (n : Node) : Prop := n.nesting ≤ d

/-- Complex selectors with commas between them, from one place to a later one. -/
inductive Row (P : Node → Prop) : List Char → List Char → SelectorList → Prop
  | last {s t : List Char} {x : ComplexSelector} : Takes P s t x → Row P s t [x]
  | next {s t u v : List Char} {x : ComplexSelector} {xs : SelectorList} :
      Takes P s t x → Blank.skip t = ',' :: u → Row P (Blank.skip u) v xs → Row P s v (x :: xs)

theorem Row.ne_nil (h : Row P s t xs) : xs ≠ [] := by
  cases h <;> exact List.cons_ne_nil _ _

/-! The rows of a text and the matches of the rule for lists. -/

theorem complexes_cons (hn : Rule.complexSelector.run s = some (t, [n])) :
    ((n :: ns).filter isComplex).mapM complex = .ok ys ↔
      ∃ x xs, complex n = .ok x ∧ (ns.filter isComplex).mapM complex = .ok xs ∧ ys = x :: xs := by
  obtain ⟨m, hm, hr, -⟩ := Rule.isMatch_of_run (r := .complexSelector) rfl hn
  cases hm
  rw [List.filter_cons_of_pos (by simp [hr])]
  simp only [mapM_eq_ok, List.forall₂_cons_left_iff]

theorem row_of_iterates (hn : Rule.complexSelector.run s = some (b, [n]))
    (hi : Iterates (alternative.run Rule.run) b t ns) (hxs : ((n :: ns).filter isComplex).mapM complex = .ok xs)
    (hP : ∀ m ∈ n :: ns, P m) : Row P s t xs := by
  induction hi generalizing s n xs with
  | stop =>
      obtain ⟨x, xs, hx, hnil, rfl⟩ := (complexes_cons hn).1 hxs
      cases hnil
      exact .last ⟨n, hn, hx, hP n List.mem_cons_self⟩
  | next hround _ ih =>
      obtain ⟨u, m, hu, hm, rfl⟩ := run_alternative_eq_some.1 hround
      obtain ⟨x, xs, hx, hrest, rfl⟩ := (complexes_cons hn).1 hxs
      refine .next ⟨n, hn, hx, hP n List.mem_cons_self⟩ hu (ih hm hrest fun k hk => hP k ?_)
      exact List.mem_cons_of_mem n (List.mem_cons_of_mem _ hk)

theorem Row.exists_iterates (h : Row P s t xs) (ht : alternative.run Rule.run t = none) :
    ∃ b n ns, Rule.complexSelector.run s = some (b, [n]) ∧ Iterates (alternative.run Rule.run) b t ns ∧
      ((n :: ns).filter isComplex).mapM complex = .ok xs ∧
      ∀ d, (∀ n, P n → Shallow d n) → Node.nestingOfAll (n :: ns) ≤ d := by
  induction h with
  | @last _ t x h =>
      obtain ⟨n, hn, hx, hP⟩ := h
      refine ⟨t, n, [], hn, .stop ht, (complexes_cons hn).2 ⟨x, [], hx, rfl, rfl⟩, fun d hd => ?_⟩
      rw [Node.nestingOfAll_cons, Node.nestingOfAll_nil, Nat.max_zero]
      exact hd n hP
  | @next _ _ u _ x xs h hu _ ih =>
      obtain ⟨n, hn, hx, hP⟩ := h
      obtain ⟨b, m, ns, hm, hi, hxs, hds⟩ := ih ht
      have hround := run_alternative_eq_some.2 ⟨u, m, hu, hm, rfl⟩
      refine ⟨_, n, _, hn, .next hround hi, (complexes_cons hn).2 ⟨x, xs, hx, hxs, rfl⟩, fun d hd => ?_⟩
      have hcomma : Node.nesting ⟨.comma, ',' :: u, u, []⟩ = 0 := rfl
      rw [Node.nestingOfAll_cons, List.cons_append, Node.nestingOfAll_cons, hcomma, Nat.zero_max]
      exact Nat.max_le.2 ⟨hd n hP, hds d hd⟩

theorem run_alternative_none (h : ∀ u, Blank.skip t ≠ ',' :: u) : alternative.run Rule.run t = none := by
  cases hrun : alternative.run Rule.run t with
  | none => rfl
  | some x =>
      obtain ⟨u, -, hu, -⟩ := run_alternative_eq_some.1 (show _ = some (x.1, x.2) from hrun)
      exact absurd hu (h u)

/-- What holds of a match and passes from nodes to their children holds of the selectors in it. -/
theorem row_of_run (h : Rule.selectors.run s = some (t, [root])) (hxs : OfNodes.selectors root = .ok xs)
    (hP : P root) (hchild : ∀ n, P n → ∀ m ∈ n.children, P m) :
    ∃ u, Row P (Blank.skip s) u xs ∧ Blank.skip u = [] := by
  obtain ⟨u, l, hl, hu, -, hroot⟩ := run_selectors_eq_some.1 h
  cases hroot
  obtain ⟨v, n, ns, hn, hns, hlist⟩ := run_list_eq_some.1 hl
  cases hlist
  have hPlist := hchild _ hP ⟨.selectorList, Blank.skip s, u, n :: ns⟩ List.mem_cons_self
  exact ⟨u, row_of_iterates hn hns hxs (hchild _ hPlist), hu⟩

theorem run_of_row (h : Row P (Blank.skip s) t xs) (ht : Blank.skip t = []) :
    ∃ root, Rule.selectors.run s = some ([], [root]) ∧ OfNodes.selectors root = .ok xs ∧
      ∀ d, (∀ n, P n → Shallow d n) → Shallow d root := by
  obtain ⟨b, n, ns, hn, hns, hxs, hd⟩ := h.exists_iterates (run_alternative_none (by simp [ht]))
  have hlist := run_list_eq_some.2 ⟨b, n, ns, hn, hns, rfl⟩
  refine ⟨_, run_selectors_eq_some.2 ⟨t, _, hlist, ht, rfl, rfl⟩, hxs, fun d hP => ?_⟩
  have hend : Node.nestingOfAll [⟨.endOfInput, [], [], []⟩] = 0 := rfl
  rw [Shallow, Node.nesting_plain rfl, Node.nestingOfAll_cons, hend, Node.nesting_plain rfl, Nat.max_zero]
  exact hd d hP

end SelectorSyntax.Selector.Spelling
