import SelectorSyntax.Proofs.Assembly.Defects

namespace SelectorSyntax.Selector.OfNodes

open Grammar

variable {n m : Node} {ns : List Node}

/-! Every pseudo-class and pseudo-element of a match is in what is read from it. -/

theorem Adds.allPseudos_subset {c c' : CompoundSelector} (h : Adds c n c') : c.allPseudos ⊆ c'.allPseudos := by
  intro p hp
  cases h with
  | type => exact hp
  | id | className | attributeTest | pseudoClass | pseudoElement =>
      simp only [CompoundSelector.allPseudos, addSubclass, List.filterMap_append, List.map_append, List.mem_append]
        at hp ⊢
      tauto

theorem Adds.exists_pseudo {c c' : CompoundSelector} (h : Adds c n c')
    (hr : n.rule = .pseudoClass ∨ n.rule = .pseudoElement) : ∃ p ∈ c'.allPseudos, pseudo n = .ok p := by
  cases h with
  | type hr' | id hr' | className hr' | attributeTest hr' => simp [hr'] at hr
  | @pseudoClass p _ hp =>
      refine ⟨p, List.mem_append_left _ (List.mem_filterMap.2 ⟨.pseudoClass p, ?_, rfl⟩), hp⟩
      exact List.mem_append_right _ List.mem_cons_self
  | @pseudoElement p _ hp =>
      refine ⟨p, List.mem_append_right _ (List.mem_map.2 ⟨.pseudoElement p, ?_, rfl⟩), hp⟩
      exact List.mem_append_right _ List.mem_cons_self

theorem exists_pseudo_foldlM {b c : CompoundSelector} (h : ns.foldlM addSimple b = .ok c) (hm : m ∈ ns)
    (hr : m.rule = .pseudoClass ∨ m.rule = .pseudoElement) : ∃ p ∈ c.allPseudos, pseudo m = .ok p := by
  induction ns generalizing b with
  | nil => cases hm
  | cons n ns ih =>
      rw [List.foldlM_cons] at h
      obtain ⟨a, ha, hrest⟩ := bind_eq_ok.1 h
      rcases List.mem_cons.1 hm with rfl | hm
      · obtain ⟨p, hp, hpm⟩ := (addSimple_eq_ok ha).2.exists_pseudo hr
        refine ⟨p, ?_, hpm⟩
        exact foldlM_keeps (fun b c k _ hb hc => (addSimple_eq_ok hc).2.allPseudos_subset hb) hp hrest
      · exact ih hrest hm

theorem exists_compound_of_chain {t : List (Combinator × CompoundSelector)} (hns : Links ns) (h : chain ns = .ok t)
    (hm : m ∈ ns) (hr : m.rule = .compoundSelector) : ∃ q ∈ t, compound m = .ok q.2 := by
  induction hns generalizing t with
  | nil => cases hm
  | @cons k n ns _ hkr _ _ _ ih =>
      obtain ⟨x, c, u, -, hc, hu, rfl⟩ := chain_cons_eq_ok h
      simp only [List.mem_cons] at hm
      rcases hm with rfl | rfl | hm
      · rw [hkr] at hr
        cases hr
      · exact ⟨(x, c), List.mem_cons_self, hc⟩
      · obtain ⟨q, hq, hmq⟩ := ih hu hm
        exact ⟨q, List.mem_cons_of_mem _ hq, hmq⟩

theorem exists_compound_of_complex {x : ComplexSelector} (hn : n.IsMatch) (hnr : n.rule = .complexSelector)
    (h : complex n = .ok x) (hm : m ∈ n.children) (hr : m.rule = .compoundSelector) :
    ∃ c ∈ x.compounds, compound m = .ok c := by
  obtain ⟨k, ns, hch, -, -, hns⟩ := hn.complexSelector hnr
  obtain ⟨k', ns', c, t, hch', hc, ht, rfl⟩ := complex_eq_ok h
  cases hch.symm.trans hch'
  rw [hch] at hm
  rcases List.mem_cons.1 hm with rfl | hm
  · exact ⟨c, List.mem_cons_self, hc⟩
  · obtain ⟨q, hq, hmq⟩ := exists_compound_of_chain hns ht hm hr
    exact ⟨q.2, List.mem_cons_of_mem _ (List.mem_map_of_mem hq), hmq⟩

theorem exists_pseudo_of_selectors {root : Node} {list : SelectorList} (h : root.IsMatch) (hr : root.rule = .selectors)
    (hs : selectors root = .ok list) (hm : m ∈ root.family) (hmr : m.rule = .pseudoClass ∨ m.rule = .pseudoElement) :
    ∃ x ∈ list, ∃ c ∈ x.compounds, ∃ p ∈ c.allPseudos, pseudo m = .ok p := by
  have hcallee : m.rule ∈ (body .compoundSelector).callees := by
    rcases hmr with hmr | hmr <;>
    · rw [hmr]
      decide
  have hocc := Occurrence.mem_ofRoot h hr hm hcallee
  obtain ⟨l, hl, hnodes, hselectors⟩ := exists_selectorList h hr
  rw [hselectors] at hs
  simp only [Occurrence.ofRoot, Occurrence.ofComplex, hnodes, List.flatMap_singleton, List.map_flatMap,
    Occurrence.map_ofSimples, List.mem_flatMap] at hocc
  obtain ⟨k, hk, n, hn, hmn⟩ := hocc
  obtain ⟨hkl, hkr⟩ := Occurrence.mem_nodesOf.1 hk
  obtain ⟨hnk, hnr⟩ := Occurrence.mem_nodesOf.1 hn
  obtain ⟨x, hx, hkx⟩ := exists_of_mapM hs hk
  obtain ⟨c, hc, hnc⟩ := exists_compound_of_complex (hl.child hkl).2 hkr hkx hnk hnr
  obtain ⟨p, hp, hmp⟩ := exists_pseudo_foldlM hnc hmn hmr
  exact ⟨x, hx, c, hc, p, hp, hmp⟩

/-- The arguments of a match are those of what is read from it. -/
theorem exists_parameter_of_selectors {root : Node} {list : SelectorList} (h : root.IsMatch)
    (hr : root.rule = .selectors) (hs : selectors root = .ok list) (hm : m ∈ root.family) (hmr : m.rule = .arguments) :
    ∃ x ∈ list, ∃ c ∈ x.compounds, ∃ p ∈ c.allPseudos, ∃ v ∈ p.parameter, pseudoParameter p.name m = .ok v := by
  have hcallers : ∀ p : Rule, p.isSilent = false → .arguments ∈ (body p).callees →
      p = .pseudoClass ∨ p = .pseudoElement := by
    intro p
    cases p <;> decide
  obtain ⟨q, hq, hqr, hmq⟩ := Occurrence.exists_parent h hm (by rw [hr, hmr]; exact nofun) (hmr ▸ hcallers)
  obtain ⟨x, hx, c, hc, p, hp, hqp⟩ := exists_pseudo_of_selectors h hr hs hq hqr
  refine ⟨x, hx, c, hc, p, hp, ?_⟩
  obtain ⟨k, ns, hch, -, hparameter⟩ := pseudo_eq_ok hqp
  have hnodes := Spelling.pseudoNodes_of_isMatch (h.family root q hq) hqr
  rw [hch] at hnodes hmq
  cases hnodes with
  | bare _ hkr =>
      obtain rfl := List.mem_singleton.1 hmq
      rw [hmr] at hkr
      cases hkr
  | plain _ hkr _ har =>
      simp only [List.mem_cons, List.not_mem_nil, or_false] at hmq
      rcases hmq with rfl | rfl
      · rw [hmr] at hkr
        cases hkr
      · rw [hmr] at har
        cases har
  | @function _ a _ hkr =>
      simp only [List.mem_cons, List.not_mem_nil, or_false] at hmq
      rcases hmq with rfl | rfl
      · rw [hmr] at hkr
        cases hkr
      · rcases hparameter with ⟨hnil, -⟩ | ⟨a', as, v, heq, hv, hpv⟩
        · cases hnil
        · cases heq
          exact ⟨v, hpv, hv⟩

end SelectorSyntax.Selector.OfNodes
