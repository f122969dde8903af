import SelectorSyntax.Proofs.Grammar.Calls
import SelectorSyntax.Proofs.Grammar.Tree

namespace SelectorSyntax.Grammar

open Text

/-! Matches of the same text at different places. -/

mutual

/-- A node with nothing behind it: what matched, wherever that was. -/
def Node.bare : Node → Node
  | ⟨rule, start, stop, children⟩ => ⟨rule, Place.between start stop, [], Node.bareOfAll children⟩

def Node.bareOfAll : List Node → List Node
  | [] => []
  | n :: ns => n.bare :: Node.bareOfAll ns

end

variable {n m : Node} {ns ms : List Node} {k s t u v : List Char}

theorem Node.bareOfAll_eq_map (ns : List Node) : Node.bareOfAll ns = ns.map Node.bare := by
  induction ns with
  | nil => rfl
  | cons n ns ih => rw [Node.bareOfAll, ih, List.map_cons]

@[simp] theorem Node.bareOfAll_append (ns ms : List Node) :
    Node.bareOfAll (ns ++ ms) = Node.bareOfAll ns ++ Node.bareOfAll ms := by
  simp only [Node.bareOfAll_eq_map, List.map_append]

/-- Between two places there is the same text whatever stands behind them. -/
theorem between_replace (h : v ++ u <:+ s ++ u) (k : List Char) :
    Place.between (s ++ k) (v ++ k) = Place.between (s ++ u) (v ++ u) := by
  obtain ⟨w, rfl⟩ := List.suffix_append_self_iff.1 h
  rw [List.append_assoc, List.append_assoc, Place.between_append, Place.between_append]

theorem Node.bare_inj (h : n.bare = m.bare) :
    n.rule = m.rule ∧ n.text = m.text ∧ Node.bareOfAll n.children = Node.bareOfAll m.children := by
  obtain ⟨r, s, t, ns⟩ := n
  obtain ⟨q, u, v, ms⟩ := m
  rw [Node.bare, Node.bare] at h
  injection h with hr hs _ hc
  exact ⟨hr, hs, hc⟩

theorem Node.bareOfAll_eq_cons (h : Node.bareOfAll ms = Node.bareOfAll (n :: ns)) :
    ∃ m ks, ms = m :: ks ∧ m.bare = n.bare ∧ Node.bareOfAll ks = Node.bareOfAll ns := by
  cases ms with
  | nil => cases h
  | cons m ks =>
      rw [Node.bareOfAll, Node.bareOfAll] at h
      injection h with hm hks
      exact ⟨m, ks, rfl, hm, hks⟩

theorem Node.bareOfAll_eq_nil (h : Node.bareOfAll ms = Node.bareOfAll []) : ms = [] := by
  cases ms with
  | nil => rfl
  | cons m ms => cases h

mutual

theorem Node.nesting_bare : ∀ n : Node, n.bare.nesting = n.nesting
  | ⟨r, s, t, ns⟩ => by rw [Node.bare, Node.nesting_mk, Node.nesting_mk, Node.nestingOfAll_bare ns]

theorem Node.nestingOfAll_bare : ∀ ns : List Node, Node.nestingOfAll (Node.bareOfAll ns) = Node.nestingOfAll ns
  | [] => rfl
  | n :: ns => by
      rw [Node.bareOfAll, Node.nestingOfAll_cons, Node.nestingOfAll_cons, Node.nesting_bare n,
        Node.nestingOfAll_bare ns]

end

theorem Node.nestingOfAll_congr (h : Node.bareOfAll ns = Node.bareOfAll ms) :
    Node.nestingOfAll ns = Node.nestingOfAll ms := by
  rw [← Node.nestingOfAll_bare ns, h, Node.nestingOfAll_bare]

theorem Node.mem_familyOfAll_append :
    n ∈ Node.familyOfAll (ns ++ ms) ↔ n ∈ Node.familyOfAll ns ∨ n ∈ Node.familyOfAll ms := by
  induction ns with
  | nil => simp [Node.familyOfAll]
  | cons k ns ih => simp only [List.cons_append, Node.familyOfAll, List.mem_append, ih, or_assoc]

/-- A rule that takes a text without what follows it makes the same node of it wherever that is, if its
children are the same. -/
theorem Rule.run_replace {r : Rule} (hm : (body r).run Rule.run (s ++ u) = some (v ++ u, ms))
    (hr : r.run (s ++ u) = some (v ++ u, ns))
    (h : ∃ ks, (body r).run Rule.run (s ++ k) = some (v ++ k, ks) ∧ Node.bareOfAll ks = Node.bareOfAll ms) :
    ∃ ks, r.run (s ++ k) = some (v ++ k, ks) ∧ Node.bareOfAll ks = Node.bareOfAll ns := by
  obtain ⟨ks, hk, hbare⟩ := h
  obtain ⟨ms', hm', hns⟩ := Rule.run_eq_some.1 hr
  cases hm.symm.trans hm'
  refine ⟨(r.wrap (s ++ k) (v ++ k, ks)).2, Rule.run_eq_some.2 ⟨ks, hk, ?_⟩, ?_⟩
  · exact Prod.ext (Rule.fst_wrap r (s ++ k) (v ++ k, ks)) rfl
  · have hns : ns = (r.wrap (s ++ u) (v ++ u, ms)).2 := (congrArg Prod.snd hns).symm
    rw [hns, Rule.wrap, Rule.wrap]
    split
    · exact hbare
    · have hbetween := between_replace (Rule.lawful_run.suffix hr) k
      simp only [Node.bareOfAll, Node.bare, hbetween]
      split
      · rfl
      · rw [hbare]

/-- What a token is made of is its text. -/
theorem Rule.bareOfAll_token {r : Rule} (hr : r.isToken = true) (hn : r.run (s ++ u) = some (v ++ u, ns))
    (hm : r.run (s ++ k) = some (v ++ k, ms)) : Node.bareOfAll ms = Node.bareOfAll ns := by
  obtain ⟨ns', hn', -⟩ := Rule.run_eq_some.1 hn
  obtain ⟨ms', hm', -⟩ := Rule.run_eq_some.1 hm
  obtain rfl : ns' = [] := Expression.run_callFree (Rule.callFree_of_isToken hr) hn'
  obtain rfl : ms' = [] := Expression.run_callFree (Rule.callFree_of_isToken hr) hm'
  obtain ⟨ks, hk, hb⟩ := Rule.run_replace hn' hn ⟨[], hm', rfl⟩
  cases hk.symm.trans hm
  exact hb

end SelectorSyntax.Grammar
