import SelectorSyntax.Proofs.Spelling.Rows
import SelectorSyntax.Proofs.Spelling.SimpleSelectors

namespace SelectorSyntax.Selector.Spelling

open Grammar Expression Text OfNodes

variable {s t : List Char} {ns : List Node}

/-- A simple selector other than the type adds a subclass or is the pseudo-element. -/
theorem simple_of_run (h : simpleSelector.run Rule.run s = some (t, ns)) :
    ∃ w n, s = w ++ t ∧ ns = [n] ∧ ∀ c c', Adds c n c' →
      (∃ x, free.Subclass x w ∧ c' = addSubclass c x) ∨
      ∃ p, free.Element [.pseudoElement p] w ∧ c' = { c with pseudos := c.pseudos ++ [.pseudoElement p] } := by
  obtain ⟨e, he, h⟩ := run_choices_some h
  simp only [List.mem_cons, List.not_mem_nil, or_false] at he
  rcases he with rfl | rfl | rfl | rfl | rfl
  · obtain ⟨w, n, hs, hns, hn, hread⟩ := reads_idSelector (s := s) h
    refine ⟨w, n, hs, hns, fun c c' hc => ?_⟩
    cases hc with
    | id _ hv => exact Or.inl ⟨_, hread _ hv, rfl⟩
    | type hr | className hr | attributeTest hr | pseudoClass hr | pseudoElement hr =>
        rw [hn] at hr
        cases hr
  · obtain ⟨w, n, hs, hns, hn, hread⟩ := reads_classSelector (s := s) h
    refine ⟨w, n, hs, hns, fun c c' hc => ?_⟩
    cases hc with
    | className _ hv => exact Or.inl ⟨_, hread _ hv, rfl⟩
    | type hr | id hr | attributeTest hr | pseudoClass hr | pseudoElement hr =>
        rw [hn] at hr
        cases hr
  · obtain ⟨w, n, hs, hns, hn, hread⟩ := reads_attributeSelector (s := s) h
    refine ⟨w, n, hs, hns, fun c c' hc => ?_⟩
    cases hc with
    | attributeTest _ hv => exact Or.inl ⟨_, .bracketed (hread _ hv), rfl⟩
    | type hr | id hr | className hr | pseudoClass hr | pseudoElement hr =>
        rw [hn] at hr
        cases hr
  · obtain ⟨w, n, hs, hns, hn, hread⟩ := reads_pseudoElement (s := s) h
    refine ⟨w, n, hs, hns, fun c c' hc => ?_⟩
    cases hc with
    | pseudoElement _ hv => exact Or.inr ⟨_, hread _ hv, rfl⟩
    | type hr | id hr | className hr | attributeTest hr | pseudoClass hr =>
        rw [hn] at hr
        cases hr
  · obtain ⟨w, n, hs, hns, hn, hread⟩ := reads_pseudoClass (s := s) h
    refine ⟨w, n, hs, hns, fun c c' hc => ?_⟩
    cases hc with
    | pseudoClass _ hv => exact Or.inl ⟨_, hread _ hv, rfl⟩
    | type hr | id hr | className hr | attributeTest hr | pseudoElement hr =>
        rw [hn] at hr
        cases hr

/-- Simple selectors in a row are subclasses and then at most one pseudo-element. -/
theorem simples_of_iterates (h : Iterates (simpleSelector.run Rule.run) s t ns) :
    ∃ w, s = w ++ t ∧ ∀ c c', c.pseudos = [] → ns.foldlM addSimple c = .ok c' →
      ∃ xs u v, w = u ++ v ∧ Concat free.Subclass xs u ∧ free.Element c'.pseudos v ∧ c'.type = c.type ∧
        c'.subclasses = c.subclasses ++ xs := by
  induction h with
  | stop =>
      refine ⟨[], rfl, fun c c' hc hf => ?_⟩
      cases hf
      exact ⟨[], [], [], rfl, .nil, hc ▸ .none, rfl, (List.append_nil _).symm⟩
  | @next s u t ks ms hs hi ih =>
      obtain ⟨w, n, rfl, rfl, hn⟩ := simple_of_run hs
      obtain ⟨y, rfl, hy⟩ := ih
      refine ⟨w ++ y, (List.append_assoc w y t).symm, fun c c' hc hf => ?_⟩
      rw [List.singleton_append, List.foldlM_cons] at hf
      obtain ⟨c₁, hc₁, hf⟩ := bind_eq_ok.1 hf
      rcases hn c c₁ (addSimple_eq_ok hc₁).2 with ⟨x, hx, rfl⟩ | ⟨p, hp, rfl⟩
      · obtain ⟨xs, u, v, rfl, hxs, hv, ht, hsub⟩ := hy (addSubclass c x) c' hc hf
        refine ⟨x :: xs, w ++ u, v, (List.append_assoc w u v).symm, .cons hx hxs, hv, ht, ?_⟩
        rw [hsub, addSubclass, List.append_assoc, List.singleton_append]
      · generalize hyt : y ++ t = r at hi
        cases hi with
        | stop =>
            cases hf
            obtain rfl : y = [] := List.append_left_eq_self.1 hyt
            refine ⟨[], [], w, List.append_nil w, .nil, ?_, rfl, (List.append_nil _).symm⟩
            rw [hc]
            exact hp
        | next hs' =>
            obtain ⟨_, n', -, rfl, -⟩ := simple_of_run hs'
            rw [List.singleton_append, List.foldlM_cons] at hf
            obtain ⟨c₂, hc₂, -⟩ := bind_eq_ok.1 hf
            have hnone := (addSimple_eq_ok hc₂).1
            simp [CompoundSelector.pseudoElement?, hc, TrailingPseudo.element?] at hnone

theorem reads_compound : Reads .compoundSelector compound free.Compound s := by
  intro t ns h
  obtain ⟨ms, hm, rfl⟩ := (Rule.run_node rfl).1 h
  rcases run_choice_eq_some.1 hm with hm | ⟨-, hm⟩
  · obtain ⟨s₁, ms₁, ms₂, h₁, h₂, rfl⟩ := run_seq_eq_some.1 hm
    have h₁ : Rule.typeSelector.run s = some (s₁, ms₁) := h₁
    obtain ⟨w, n, rfl, rfl, hn, hread⟩ := reads_typeSelector h₁
    obtain ⟨y, rfl, hy⟩ := simples_of_iterates ((run_star_eq_some Rule.lawful_run rfl).1 h₂)
    refine ⟨w ++ y, _, (List.append_assoc w y t).symm, rfl, rfl, fun c hc => ?_⟩
    have hf : ([n] ++ ms₂).foldlM addSimple .empty = .ok c := hc
    rw [List.singleton_append, List.foldlM_cons] at hf
    obtain ⟨c₁, hc₁, hf⟩ := bind_eq_ok.1 hf
    cases (addSimple_eq_ok hc₁).2 with
    | type _ hv =>
        obtain ⟨xs, u, v, rfl, hxs, hv', ht, hsub⟩ := hy _ c rfl hf
        refine .mk (ht ▸ hread _ hv) ?_ hv'
        rw [hsub]
        exact hxs
    | id hr | className hr | attributeTest hr | pseudoClass hr | pseudoElement hr =>
        rw [hn] at hr
        cases hr
  · have hi := ((run_plus_eq_some Rule.lawful_run rfl).1 hm).1
    obtain ⟨y, rfl, hy⟩ := simples_of_iterates hi
    refine ⟨y, _, rfl, rfl, rfl, fun c hc => ?_⟩
    obtain ⟨xs, u, v, rfl, hxs, hv, ht, hsub⟩ := hy .empty c rfl hc
    have hc : free.Compound c ([] ++ (u ++ v)) := .mk (ht ▸ .none) (hsub ▸ hxs) hv
    exact hc

/-! Chains and lists. -/

theorem reads_combinator : Reads .combinator OfNodes.combinator Joins s := by
  intro t ns h
  obtain ⟨ms, hm, rfl⟩ := (Rule.run_node rfl).1 h
  rcases run_choice_eq_some.1 hm with hm | ⟨-, hm⟩
  · obtain ⟨s₁, ms₁, ks₁, h₁, g₁, rfl⟩ := run_seq_eq_some.1 hm
    obtain ⟨s₂, ms₂, ms₃, h₂, h₃, rfl⟩ := run_seq_eq_some.1 g₁
    have h₂ : Rule.combinatorSymbol.run s₁ = some (s₂, ms₂) := h₂
    obtain ⟨b₁, hb₁, rfl, rfl⟩ := maybe_ws_blanks h₁
    obtain ⟨x, rfl, rfl, hx⟩ := run_token rfl h₂
    obtain ⟨b₂, hb₂, rfl, rfl⟩ := maybe_ws_blanks h₃
    refine ⟨b₁ ++ (x ++ b₂), _, by simp, rfl, rfl, fun k hk => ?_⟩
    rw [OfNodes.combinator] at hk
    simp only [Rule.isToken, Bool.false_eq_true, if_false, List.nil_append, List.cons_append, List.head?_cons,
      hx] at hk
    split at hk
    next k' hk' =>
      cases hk
      have hs : k.symbol = String.ofList x := by simpa using List.find?_some hk'
      have hx : x = k.symbol.toList := by rw [hs, String.toList_ofList]
      rw [hx]
      exact .sign (List.mem_of_find?_eq_some hk') hb₁ hb₂
    next => cases hk
  · have hm : Rule.descendant.run s = some (t, ms) := hm
    obtain ⟨ks, hw, rfl⟩ := (Rule.run_node rfl).1 hm
    obtain ⟨b, hb, hne, rfl, -⟩ := ws_blanks hw
    refine ⟨b, _, rfl, rfl, rfl, fun k hk => ?_⟩
    cases hk
    exact .descendant hb hne

theorem chain_of_iterates
    (h : Iterates ((seq (call .combinator) (call .compoundSelector)).run Rule.run) s t ns) :
    ∃ w, s = w ++ t ∧ ∀ x, chain ns = .ok x → Concat free.Link x w := by
  induction h with
  | stop =>
      refine ⟨[], rfl, fun x hx => ?_⟩
      cases hx
      exact .nil
  | @next s u t ks ms hs _ ih =>
      obtain ⟨s₁, ms₁, ms₂, h₁, h₂, rfl⟩ := run_seq_eq_some.1 hs
      have h₁ : Rule.combinator.run s = some (s₁, ms₁) := h₁
      have h₂ : Rule.compoundSelector.run s₁ = some (u, ms₂) := h₂
      obtain ⟨w₁, k, rfl, rfl, -, hk⟩ := reads_combinator h₁
      obtain ⟨w₂, c, rfl, rfl, -, hc⟩ := reads_compound h₂
      obtain ⟨y, rfl, hy⟩ := ih
      refine ⟨(w₁ ++ w₂) ++ y, by simp, fun x hx => ?_⟩
      obtain ⟨k', c', x', hk', hc', hx', rfl⟩ := chain_cons_eq_ok hx
      exact .cons (.mk (hk k' hk') (hc c' hc')) (hy x' hx')

theorem reads_complex : Reads .complexSelector complex free.Complex s := by
  intro t ns h
  obtain ⟨u, n, ms, hn, hms, rfl⟩ := run_complex_eq_some.1 h
  obtain ⟨w, _, rfl, hnode, -, hc⟩ := reads_compound hn
  cases hnode
  obtain ⟨y, rfl, hy⟩ := chain_of_iterates hms
  refine ⟨w ++ y, _, (List.append_assoc w y t).symm, rfl, rfl, fun x hx => ?_⟩
  obtain ⟨m, ks, c', x', hch, hc', hx', rfl⟩ := complex_eq_ok hx
  cases hch
  exact .mk (hc c' hc') (hy x' hx')

theorem alternatives_of_row {P : Node → Prop} {xs : SelectorList} (h : Row P s t xs) :
    ∃ w, s = w ++ t ∧ free.Alternatives xs w := by
  induction h with
  | last h =>
      obtain ⟨n, hn, hx, -⟩ := h
      obtain ⟨w, _, rfl, hnode, -, hread⟩ := reads_complex hn
      cases hnode
      exact ⟨w, rfl, .last (hread _ hx)⟩
  | @next s t u v x xs h ht _ ih =>
      obtain ⟨n, hn, hx, -⟩ := h
      obtain ⟨w, _, rfl, hnode, -, hread⟩ := reads_complex hn
      cases hnode
      obtain ⟨b₁, hb₁, htext⟩ := blanks_skip t
      obtain ⟨b₂, hb₂, hu⟩ := blanks_skip u
      obtain ⟨y, hy, hxs⟩ := ih
      refine ⟨w ++ (b₁ ++ ',' :: (b₂ ++ y)), ?_, .next (hread x hx) hb₁ hb₂ hxs⟩
      rw [htext, ht, hu, hy]
      simp only [List.append_assoc, List.cons_append]

theorem spells_of_run (h : Rule.selectors.run s = some (t, ns)) :
    ∃ n, ns = [n] ∧ ∀ list, OfNodes.selectors n = .ok list → free.Spells list s := by
  obtain ⟨n, rfl, -⟩ := Rule.isMatch_of_run (r := .selectors) rfl h
  refine ⟨n, rfl, fun list hlist => ?_⟩
  obtain ⟨u, hrow, hu⟩ := row_of_run (P := fun _ => True) h hlist trivial fun _ _ _ _ => trivial
  obtain ⟨w, hs, hw⟩ := alternatives_of_row hrow
  obtain ⟨b₁, hb₁, htext⟩ := blanks_skip s
  obtain ⟨b₂, hb₂, hu₂⟩ := blanks_skip u
  rw [hu, List.append_nil] at hu₂
  rw [hs, hu₂] at htext
  exact ⟨b₁, w, b₂, hb₁, hw, hb₂, htext⟩

end SelectorSyntax.Selector.Spelling

namespace SelectorSyntax

open Selector

/-- A text is read as a list only if it spells that list, with nothing skipped, repeated or left over. -/
theorem parseSelectorList_spells {input : List Char} {d : Nat} {list : SelectorList}
    (h : parseSelectorList input d = .ok list) : Spelling.free.Spells list input := by
  obtain ⟨root, hm, hs⟩ := parseSelectorList_eq_ok h
  obtain ⟨-, t, hr⟩ := matchRoot_eq_ok hm
  obtain ⟨n, hn, hread⟩ := Spelling.spells_of_run hr
  cases hn
  exact hread list hs

/-- A comment, an escape that is not the universal selector, and a number in upper case. -/
theorem parseSelectorList_spells_escaped :
    ∃ list, parseSelectorList "a[b=C I],/**/\\2a  :nth-col(2N )".toList 1 = .ok list ∧
      Spelling.free.Spells list "a[b=C I],/**/\\2a  :nth-col(2N )".toList := by
  have h : parseSelectorList "a[b=C I],/**/\\2a  :nth-col(2N )".toList 1 = .ok
      [⟨⟨some "a", [.attribute ⟨"b", some ⟨.equals, ⟨false, "C"⟩, some .caseInsensitive⟩⟩], []⟩, []⟩,
        ⟨⟨some "*", [], []⟩, [(.descendant, ⟨none, [.pseudoClass ⟨"nth-col", some (.text "2n")⟩], []⟩)]⟩] := by cbv
  exact ⟨_, h, parseSelectorList_spells h⟩

end SelectorSyntax
