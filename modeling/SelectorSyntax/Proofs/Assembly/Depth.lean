import SelectorSyntax.Proofs.Assembly.Results
import SelectorSyntax.Proofs.Grammar.Calls
import SelectorSyntax.Proofs.Grammar.Tree

namespace SelectorSyntax.Selector

open Grammar

def Subclass.pseudo? : Subclass → Option Pseudo
  | .pseudoClass p => some p
  | _ => none

/-- The pseudo-classes and pseudo-elements of a compound, wherever they stand. -/
def CompoundSelector.allPseudos (c : CompoundSelector) : List Pseudo :=
  c.subclasses.filterMap Subclass.pseudo? ++ c.pseudos.map TrailingPseudo.value

/-- No parameter of a compound has more than `k` lists inside one another. -/
def CompoundSelector.DepthAtMost (k : Nat) (c : CompoundSelector) : Prop :=
  ∀ p ∈ c.allPseudos, ∀ v ∈ p.parameter, v.depth ≤ k

namespace OfNodes

variable {n : Node} {ns : List Node} {k : Nat}

theorem child?_mem {r : Rule} {m : Node} (h : child? n r = some m) : m ∈ n.children ∧ m.rule = r := by
  rw [child?] at h
  exact ⟨List.mem_of_find?_eq_some h, by simpa using List.find?_some h⟩

theorem depthOfAll_append (ps qs : List Parameter) :
    Parameter.depthOfAll (ps ++ qs) = max (Parameter.depthOfAll ps) (Parameter.depthOfAll qs) := by
  induction ps with
  | nil => exact (Nat.zero_max _).symm
  | cons p ps ih => rw [List.cons_append, Parameter.depthOfAll, Parameter.depthOfAll, ih, Nat.max_assoc]

mutual

/-- A list is made of brackets only. -/
theorem depth_item : ∀ (n : Node) {p : Parameter}, item n = .ok p → p.depth ≤ n.nesting
  | ⟨r, s, t, ns⟩, p, h => by
      rcases item_eq_ok h with ⟨-, rfl⟩ | ⟨-, rfl⟩ | ⟨rfl, ps, hps, rfl⟩
      · exact Nat.zero_le _
      · exact Nat.zero_le _
      · have hd := depth_groupItems ns hps
        have hn : Node.nesting ⟨.argGroup, s, t, ns⟩ = Node.nestingOfAll ns + 1 := rfl
        rw [Parameter.depth, Parameter.depthOfAll, Parameter.depth, hn]
        omega

theorem depth_items : ∀ (ns : List Node) {ps : List Parameter}, items ns = .ok ps →
    Parameter.depthOfAll ps ≤ Node.nestingOfAll ns
  | [], ps, h => by
      cases h
      exact Nat.le_refl _
  | n :: ns, ps, h => by
      obtain ⟨q, qs, hq, hqs, rfl⟩ := items_cons_eq_ok h
      have hd := depth_item n hq
      have hds := depth_items ns hqs
      rw [Parameter.depthOfAll, Node.nestingOfAll_cons]
      omega

theorem depth_groupItems : ∀ (ns : List Node) {ps : List Parameter}, groupItems ns = .ok ps →
    Parameter.depthOfAll ps ≤ Node.nestingOfAll ns
  | [], ps, h => by
      cases h
      exact Nat.le_refl _
  | ⟨r, s, t, ms⟩ :: ns, ps, h => by
      obtain ⟨qs, rs, hrs, rfl, hqs⟩ := groupItems_cons_eq_ok h
      have hds := depth_groupItems ns hrs
      have hd : Parameter.depthOfAll qs ≤ Node.nesting ⟨r, s, t, ms⟩ := by
        rcases hqs with ⟨-, hqs⟩ | ⟨-, rfl⟩
        · have hd := depth_items ms hqs
          rw [Node.nesting_mk]
          omega
        · exact Nat.zero_le _
      rw [depthOfAll_append, Node.nestingOfAll_cons]
      omega

end

theorem nesting_le_of_callFree (hn : n.IsMatch) (hc : (body n.rule).callFree = true) (hb : n.rule.isBracketed = false) :
    n.nesting ≤ k := by
  obtain ⟨ms, hm, hch⟩ := hn.body
  obtain rfl : ms = [] := Expression.run_callFree hc hm
  obtain ⟨r, s, t, ns⟩ := n
  have hch : ns = [] := by simpa using hch
  rw [Node.nesting_plain hb, hch]
  exact Nat.zero_le k

mutual

/-- Of a match, all brackets are those of lists. -/
theorem nesting_item : ∀ (n : Node) {p : Parameter}, n.IsMatch → item n = .ok p → n.nesting ≤ p.depth
  | ⟨r, s, t, ns⟩, p, hn, h => by
      rcases item_eq_ok h with ⟨hr, rfl⟩ | ⟨rfl, rfl⟩ | ⟨rfl, ps, hps, rfl⟩
      · simp only [List.mem_cons, List.not_mem_nil, or_false] at hr
        rcases hr with rfl | rfl | rfl | rfl <;> exact nesting_le_of_callFree hn rfl rfl
      · exact nesting_le_of_callFree hn rfl rfl
      · have hd := nesting_groupItems ns (fun m hm => (hn.child hm).2) hps
        rw [Node.nesting_bracketed rfl, Parameter.depth, Parameter.depthOfAll]
        omega

theorem nesting_items : ∀ (ns : List Node) {ps : List Parameter}, (∀ n ∈ ns, n.IsMatch) → items ns = .ok ps →
    Node.nestingOfAll ns ≤ Parameter.depthOfAll ps
  | [], _, _, _ => Nat.zero_le _
  | n :: ns, ps, hns, h => by
      obtain ⟨q, qs, hq, hqs, rfl⟩ := items_cons_eq_ok h
      have hd := nesting_item n (hns n List.mem_cons_self) hq
      have hds := nesting_items ns (fun m hm => hns m (List.mem_cons_of_mem n hm)) hqs
      rw [Parameter.depthOfAll, Node.nestingOfAll_cons]
      omega

theorem nesting_groupItems : ∀ (ns : List Node) {ps : List Parameter}, (∀ n ∈ ns, n.IsMatch) → groupItems ns = .ok ps →
    Node.nestingOfAll ns ≤ Parameter.depthOfAll ps
  | [], _, _, _ => Nat.zero_le _
  | ⟨r, s, t, ms⟩ :: ns, ps, hns, h => by
      obtain ⟨qs, rs, hrs, rfl, hqs⟩ := groupItems_cons_eq_ok h
      obtain ⟨hn, hns⟩ := List.forall_mem_cons.1 hns
      have hds := nesting_groupItems ns hns hrs
      have hd : Node.nesting ⟨r, s, t, ms⟩ ≤ Parameter.depthOfAll qs := by
        rcases hqs with ⟨hr, hqs⟩ | ⟨hr, -⟩
        · obtain rfl : r = .argument := hr
          rw [Node.nesting_plain rfl]
          exact nesting_items ms (fun m hm => (hn.child hm).2) hqs
        · simp only [List.mem_cons, List.not_mem_nil, or_false] at hr
          rcases hr with rfl | rfl <;> exact nesting_le_of_callFree hn rfl rfl
      rw [depthOfAll_append, Node.nestingOfAll_cons]
      omega

end

theorem depth_argumentItems {ps : List Parameter} (h : argumentItems n = .ok ps) :
    Parameter.depthOfAll ps ≤ Node.nestingOfAll n.children := by
  rcases argumentItems_eq_ok h with ⟨⟨r, s, t, ms⟩, ha, hps⟩ | ⟨-, rfl⟩
  · have hm := Node.nesting_le_of_mem (child?_mem ha).1
    have hd := depth_items ms hps
    rw [Node.nesting_mk] at hm
    omega
  · exact Nat.zero_le _

theorem nestingOfAll_children_le (n : Node) : Node.nestingOfAll n.children ≤ n.nesting := by
  obtain ⟨r, s, t, ns⟩ := n
  rw [Node.nesting_mk]
  exact Nat.le_add_right _ _

theorem depth_nthText {place written : List Char} {v : Parameter} (h : nthText place written = .ok v) :
    v.depth = 0 := by
  rw [(nthText_eq_ok h).1]
  rfl

theorem depth_pseudoParameter {name : String} {v : Parameter} (h : pseudoParameter name n = .ok v) :
    v.depth ≤ n.nesting := by
  rcases pseudoParameter_eq_ok h with ⟨-, h⟩ | ⟨hr, ⟨-, h⟩ | ⟨-, ps, hps, rfl⟩⟩
  · obtain ⟨k, -, hk⟩ := nthParameter_eq_ok h
    exact depth_nthText hk ▸ Nat.zero_le _
  · obtain ⟨m, k, -, -, hk⟩ := escapedNthParameter_eq_ok h
    exact depth_nthText hk ▸ Nat.zero_le _
  · have hd := depth_argumentItems hps
    obtain ⟨r, s, t, ns⟩ := n
    cases hr
    rw [Parameter.depth, Nat.add_comm]
    exact Nat.succ_le_succ hd

theorem depth_pseudo {p : Pseudo} (h : pseudo n = .ok p) : ∀ v ∈ p.parameter, v.depth ≤ n.nesting := by
  obtain ⟨m, ns, hn, -, hp⟩ := pseudo_eq_ok h
  rcases hp with ⟨-, hp⟩ | ⟨a, as, v, rfl, hv, hp⟩
  · simp [hp]
  · rw [hp]
    rintro _ ⟨⟩
    have ha : a ∈ n.children := by simp [hn]
    calc
      _ ≤ a.nesting := depth_pseudoParameter hv
      _ ≤ Node.nestingOfAll n.children := Node.nesting_le_of_mem ha
      _ ≤ n.nesting := nestingOfAll_children_le n

theorem Adds.depthAtMost {c c' : CompoundSelector} (h : Adds c n c') (hn : n.nesting ≤ k)
    (hc : c.DepthAtMost k) :
    c'.DepthAtMost k := by
  intro p hp v hv
  have hnew {q : Pseudo} (hq : pseudo n = .ok q) (hpq : p ∈ c.allPseudos ∨ p = q) : v.depth ≤ k := by
    rcases hpq with hp | rfl
    · exact hc p hp v hv
    · exact Nat.le_trans (depth_pseudo hq v hv) hn
  cases h with
  | type => exact hc p hp v hv
  | id | className | attributeTest =>
      refine hc p ?_ v hv
      simpa [CompoundSelector.allPseudos, addSubclass, Subclass.pseudo?] using hp
  | pseudoClass hr hq =>
      refine hnew hq ?_
      simp only [CompoundSelector.allPseudos, addSubclass, List.filterMap_append, List.filterMap_cons,
        Subclass.pseudo?, List.filterMap_nil, List.mem_append, List.mem_singleton] at hp ⊢
      tauto
  | pseudoElement hr hq =>
      refine hnew hq ?_
      simp only [CompoundSelector.allPseudos, List.map_append, List.map_cons, List.map_nil, TrailingPseudo.value,
        List.mem_append, List.mem_singleton] at hp ⊢
      tauto

theorem depth_compound {c : CompoundSelector} (h : compound n = .ok c) (hn : n.nesting ≤ k) :
    c.DepthAtMost k := by
  refine foldlM_keeps (fun b b' m hm hb ha => ?_) (fun p hp => ?_) h
  · refine (addSimple_eq_ok ha).2.depthAtMost ?_ hb
    exact Nat.le_trans (Node.nesting_le_of_mem hm) (Nat.le_trans (nestingOfAll_children_le n) hn)
  · cases hp

theorem depth_chain : ∀ (ns : List Node) {t : List (Combinator × CompoundSelector)}, chain ns = .ok t →
    Node.nestingOfAll ns ≤ k → ∀ x ∈ t, x.2.DepthAtMost k
  | [], t, h, _ => by
      cases h
      simp
  | [m], t, h, _ => by cases h
  | l :: m :: ns, t, h, hn => by
      obtain ⟨x, c, u, -, hc, hu, rfl⟩ := chain_cons_eq_ok h
      simp only [Node.nestingOfAll_cons] at hn
      intro y hy
      rcases List.mem_cons.1 hy with rfl | hy
      · exact depth_compound hc (by omega)
      · exact depth_chain ns hu (by omega) y hy

theorem depth_complex {x : ComplexSelector} (h : complex n = .ok x) (hn : n.nesting ≤ k) :
    ∀ c ∈ x.compounds, c.DepthAtMost k := by
  obtain ⟨m, ns, c, t, hch, hc, ht, rfl⟩ := complex_eq_ok h
  have hle := nestingOfAll_children_le n
  rw [hch, Node.nestingOfAll_cons] at hle
  intro y hy
  rcases List.mem_cons.1 hy with rfl | hy
  · exact depth_compound hc (by omega)
  · obtain ⟨z, hz, rfl⟩ := List.mem_map.1 hy
    exact depth_chain ns ht (by omega) z hz

theorem depth_selectors {list : SelectorList} (h : selectors n = .ok list) (hn : n.nesting ≤ k) :
    ∀ x ∈ list, ∀ c ∈ x.compounds, c.DepthAtMost k := by
  rw [selectors] at h
  split at h
  next l hl =>
    intro x hx
    rw [selectorList] at h
    obtain ⟨m, hm, hmx⟩ := mem_of_mapM h hx
    have hml := Node.nesting_le_of_mem (List.mem_of_mem_filter hm)
    have hln := Node.nesting_le_of_mem (child?_mem hl).1
    have hle := nestingOfAll_children_le l
    have hne := nestingOfAll_children_le n
    exact depth_complex hmx (by omega)
  next => cases h

end OfNodes

end SelectorSyntax.Selector
