import SelectorSyntax.Proofs.Assembly.Defects
import SelectorSyntax.Proofs.Tokens.SingleEscape

namespace SelectorSyntax.Grammar

variable {n : Node} {ns : List Node} {P : Rule → Prop}

mutual

/-- Rules that call only one another have no other nodes inside them. -/
theorem Node.IsMatch.rules_of_family (hP : ∀ r, P r → ∀ q ∈ (Grammar.body r).callees, P q) :
    ∀ n : Node, n.IsMatch → P n.rule → ∀ m ∈ n.family, P m.rule
  | ⟨r, s, t, ns⟩, h, hr, m, hm => by
      rw [Node.family] at hm
      rcases List.mem_cons.1 hm with rfl | hm
      · exact hr
      · exact Node.rules_of_familyOfAll hP ns (fun k hk => ⟨(h.child hk).2, hP r hr _ (h.child hk).1⟩) m hm

theorem Node.rules_of_familyOfAll (hP : ∀ r, P r → ∀ q ∈ (Grammar.body r).callees, P q) :
    ∀ ns : List Node, (∀ n ∈ ns, n.IsMatch ∧ P n.rule) → ∀ m ∈ Node.familyOfAll ns, P m.rule
  | [], _, m, hm => by cases hm
  | n :: ns, h, m, hm => by
      obtain ⟨hn, hns⟩ := List.forall_mem_cons.1 h
      rw [Node.familyOfAll] at hm
      rcases List.mem_append.1 hm with hm | hm
      · exact Node.IsMatch.rules_of_family hP n hn.1 hn.2 m hm
      · exact Node.rules_of_familyOfAll hP ns hns m hm

end

theorem Node.family_eq (n : Node) : n.family = n :: Node.familyOfAll n.children := by
  cases n
  rw [Node.family]

end SelectorSyntax.Grammar

namespace SelectorSyntax.Selector

open Grammar Text OfNodes Occurrence

variable {c c' : CompoundSelector} {n m : Node} {ns : List Node}

/-! Where the compounds of a match are. -/

/-- What compounds are inside of. -/
def outerRules : List Rule := [.selectors, .selectorList, .complexSelector, .compoundSelector]

def isCompound (n : Node) : Bool := n.rule = .compoundSelector

/-- The nodes of compounds in a match, from left to right. -/
def compoundNodes (root : Node) : List Node := root.family.filter isCompound

theorem filter_familyOfAll (ns : List Node) (p : Node → Bool) :
    (Node.familyOfAll ns).filter p = ns.flatMap fun n => n.family.filter p := by
  induction ns with
  | nil => rfl
  | cons n ns ih => rw [Node.familyOfAll, List.filter_append, ih, List.flatMap_cons]

theorem compoundNodes_inner (h : n.IsMatch) (hr : n.rule ∉ outerRules) : compoundNodes n = [] := by
  have hP : ∀ r : Rule, r ∉ outerRules → ∀ q ∈ (body r).callees, q ∉ outerRules := by
    intro r
    cases r <;> decide
  refine List.filter_eq_nil_iff.2 fun m hm hc => ?_
  have hm := Node.IsMatch.rules_of_family hP n h hr m hm
  rw [of_decide_eq_true hc] at hm
  exact hm (by decide)

theorem compoundNodes_compound (h : n.IsMatch) (hr : n.rule = .compoundSelector) : compoundNodes n = [n] := by
  have hinner : ∀ q ∈ (body .compoundSelector).callees, q ∉ outerRules := by decide
  have hnil : n.children.flatMap compoundNodes = [] := by
    refine List.flatMap_eq_nil_iff.2 fun m hm => ?_
    obtain ⟨hmr, hmm⟩ := h.child hm
    exact compoundNodes_inner hmm (hinner _ (hr ▸ hmr))
  rw [compoundNodes, Node.family_eq, List.filter_cons_of_pos (by simpa [isCompound] using hr), filter_familyOfAll]
  exact congrArg (n :: ·) hnil

/-- Around the compounds there are nodes that have compounds inside, or none. -/
theorem compoundNodes_outer {r : Rule} (h : n.IsMatch) (hr : n.rule ≠ .compoundSelector)
    (hc : ∀ q ∈ (body n.rule).callees, q = r ∨ q ∉ outerRules) :
    compoundNodes n = (nodesOf r n).flatMap compoundNodes := by
  rw [compoundNodes, Node.family_eq, List.filter_cons_of_neg (by simpa [isCompound] using hr), filter_familyOfAll,
    nodesOf]
  have hns : ∀ m ∈ n.children, m.rule = r ∨ compoundNodes m = [] := fun m hm =>
    (hc _ (h.child hm).1).imp_right (compoundNodes_inner (h.child hm).2)
  generalize n.children = ns at hns
  change ns.flatMap compoundNodes = _
  induction ns with
  | nil => rfl
  | cons m ns ih =>
      obtain ⟨hm, hns⟩ := List.forall_mem_cons.1 hns
      by_cases hmr : m.rule = r
      · rw [List.filter_cons_of_pos (by simpa using hmr), List.flatMap_cons, List.flatMap_cons, ih hns]
      · rw [List.filter_cons_of_neg (by simpa using hmr), List.flatMap_cons, hm.resolve_left hmr, ih hns]
        rfl

theorem compoundNodes_complex (h : n.IsMatch) (hr : n.rule = .complexSelector) :
    compoundNodes n = nodesOf .compoundSelector n := by
  have hc : ∀ q ∈ (body .complexSelector).callees, q = .compoundSelector ∨ q ∉ outerRules := by decide
  rw [compoundNodes_outer h (by rw [hr]; exact nofun) (hr ▸ hc)]
  have hall : ∀ m ∈ nodesOf .compoundSelector n, compoundNodes m = [m] := fun m hm =>
    compoundNodes_compound (h.child (mem_nodesOf.1 hm).1).2 (mem_nodesOf.1 hm).2
  rw [List.flatMap_congr hall, List.flatMap_singleton']

theorem compoundNodes_list (h : n.IsMatch) (hr : n.rule = .selectorList) :
    compoundNodes n = (nodesOf .complexSelector n).flatMap (nodesOf .compoundSelector) := by
  have hc : ∀ q ∈ (body .selectorList).callees, q = .complexSelector ∨ q ∉ outerRules := by decide
  rw [compoundNodes_outer h (by rw [hr]; exact nofun) (hr ▸ hc)]
  exact List.flatMap_congr fun m hm =>
    compoundNodes_complex (h.child (mem_nodesOf.1 hm).1).2 (mem_nodesOf.1 hm).2

theorem compoundNodes_root (h : n.IsMatch) (hr : n.rule = .selectors) :
    compoundNodes n = (nodesOf .selectorList n).flatMap compoundNodes := by
  have hc : ∀ q ∈ (body .selectors).callees, q = .selectorList ∨ q ∉ outerRules := by decide
  exact compoundNodes_outer h (by rw [hr]; exact nofun) (hr ▸ hc)

/-! The types of compounds. -/

/-- The token that the type of a compound is written with. -/
def typeToken? (n : Node) : Option Node := (child? n .typeSelector).bind fun m => m.children.head?

/-- How the type of a compound is read: there is none, an asterisk was written, or a name, which is decoded. -/
inductive TypeRead (n : Node) : Option String → Prop
  | none : typeToken? n = none → TypeRead n none
  | universal {u} : typeToken? n = some u → u.rule = .universal → TypeRead n (some "*")
  | element {u v} : typeToken? n = some u → u.rule = .ident → Identifier.decode u.text = .ok v →
      TypeRead n (some (String.ofList v))

theorem type_of_foldlM (hns : ∀ m ∈ ns, m.rule ≠ .typeSelector) (h : ns.foldlM addSimple c = .ok c') :
    c'.type = c.type := by
  refine foldlM_keeps (P := fun x => x.type = c.type) (fun x y m hm hx hadd => ?_) rfl h
  cases (addSimple_eq_ok hadd).2 with
  | type hr => exact absurd hr (hns m hm)
  | id | className | attributeTest | pseudoClass | pseudoElement => exact hx

/-- A type selector is the first of the simple selectors, if there is one. -/
theorem type_children (h : n.IsMatch) (hr : n.rule = .compoundSelector) :
    (∀ m ∈ n.children, m.rule ≠ .typeSelector) ∨
      ∃ m ns, n.children = m :: ns ∧ m.rule = .typeSelector ∧ ∀ k ∈ ns, k.rule ≠ .typeSelector := by
  have hsilent : ∀ r ∈ simpleSelector.callees, r.isSilent = false := by decide
  have hsimple : ∀ r ∈ simpleSelector.callees, r ≠ .typeSelector := by decide
  obtain ⟨ms, hm, hc⟩ := h.body
  rw [hr] at hm hc
  rw [hc]
  rcases Expression.run_choice_eq_some.1 hm with hm | ⟨-, hm⟩
  · obtain ⟨u, ks, ls, hu, hls, rfl⟩ := Expression.run_seq_eq_some.1 hm
    obtain ⟨m, rfl, hmr, -⟩ := Rule.isMatch_of_run rfl hu
    exact Or.inr ⟨m, ls, rfl, hmr, fun k hk =>
      hsimple _ (Expression.mem_of_run (e := .star simpleSelector) hsilent hls hk).1⟩
  · refine Or.inl fun k hk => hsimple _ ?_
    have hplus : ∀ r ∈ (Expression.plus simpleSelector).callees, r ∈ simpleSelector.callees := by decide
    exact hplus _ (Expression.mem_of_run (fun r hr => hsilent r (hplus r hr)) hm hk).1

theorem identifier_eq_ok {v : String} (h : identifier n = .ok v) :
    ∃ w, Identifier.decode n.text = .ok w ∧ v = String.ofList w := by
  rw [identifier] at h
  split at h
  next w hw =>
    cases h
    exact ⟨w, hw, rfl⟩
  next => cases h

theorem typeRead_of_compound (h : n.IsMatch) (hr : n.rule = .compoundSelector) (hc : compound n = .ok c) :
    TypeRead n c.type := by
  rw [compound] at hc
  rcases type_children h hr with hns | ⟨m, ns, hch, hmr, hns⟩
  · have hnone : child? n .typeSelector = none := List.find?_eq_none.2 fun m hm => by simpa using hns m hm
    rw [type_of_foldlM hns hc]
    exact .none (by rw [typeToken?, hnone]; rfl)
  · have hchild : child? n .typeSelector = some m := by simp [child?, hch, hmr]
    have hm := (h.child (hch ▸ List.mem_cons_self)).2
    rw [hch, List.foldlM_cons] at hc
    obtain ⟨c₁, hc₁, hc⟩ := bind_eq_ok.1 hc
    rw [type_of_foldlM hns hc]
    cases (addSimple_eq_ok hc₁).2 with
    | type _ ht =>
        have hs : m.children.map Node.rule ∈ [[.universal], [.ident]] := hm.shape hmr rfl rfl
        simp only [List.mem_cons, List.not_mem_nil, or_false, List.map_eq_singleton_iff] at hs
        have htoken : typeToken? n = m.children.head? := by rw [typeToken?, hchild, Option.bind_some]
        rcases hs with ⟨u, hu, hur⟩ | ⟨u, hu, hur⟩
        · simp only [typeName, hu, List.head?_cons, hur] at ht
          cases ht
          exact .universal (by rw [htoken, hu, List.head?_cons]) hur
        · simp only [typeName, hu, List.head?_cons, hur] at ht
          obtain ⟨v, hv, rfl⟩ := identifier_eq_ok ht
          exact .element (by rw [htoken, hu, List.head?_cons]) hur hv
    | id hk | className hk | attributeTest hk | pseudoClass hk | pseudoElement hk => cases hmr.symm.trans hk

/-- What is said of a type selector: the token that it was written with makes it universal, or its name does. -/
inductive Typed (c : CompoundSelector) (n : Node) : Prop
  | none : typeToken? n = none → c.type = none → Typed c n
  | some {u t} : typeToken? n = some u → u.rule ∈ [Rule.universal, .ident] → c.type = some t →
      (isUniversal t = true ↔ u.rule = .universal ∨ u.rule = .ident ∧ Escape.Single '*' u.text) → Typed c n

theorem typed_of_compound (h : n.IsMatch) (hr : n.rule = .compoundSelector) (hc : compound n = .ok c) :
    Typed c n := by
  have hread := typeRead_of_compound h hr hc
  generalize htype : c.type = t at hread
  cases hread with
  | none hnone => exact .none hnone htype
  | universal htoken hu => exact .some htoken (by simp [hu]) htype (by simp [isUniversal, hu])
  | @element u v htoken hu hv =>
      refine .some htoken (by simp [hu]) htype ?_
      have hstar : isUniversal (String.ofList v) = true ↔ v = ['*'] := by
        rw [isUniversal, decide_eq_true_iff, show "*" = String.ofList ['*'] from rfl, String.ofList_inj]
      rw [hstar, ← Identifier.decode_eq_singleton_iff (c := '*') (by decide) (by decide), hv]
      simp [hu]

/-! Compounds in the order of their nodes. -/

theorem typed_of_chain (hl : Links ns) {t : List (Combinator × CompoundSelector)} (h : chain ns = .ok t) :
    List.Forall₂ Typed (t.map Prod.snd) (ns.filter fun m => m.rule = .compoundSelector) := by
  induction hl generalizing t with
  | nil =>
      cases h
      exact .nil
  | cons _ hk hm hmr _ ih =>
      obtain ⟨x, c, u, -, hc, hu, rfl⟩ := chain_cons_eq_ok h
      rw [List.filter_cons_of_neg (by simp [hk]), List.filter_cons_of_pos (by simpa using hmr)]
      exact .cons (typed_of_compound hm hmr hc) (ih hu)

theorem typed_of_complex {x : ComplexSelector} (h : n.IsMatch) (hr : n.rule = .complexSelector)
    (hx : complex n = .ok x) : List.Forall₂ Typed x.compounds (nodesOf .compoundSelector n) := by
  obtain ⟨m, ks, hch, hm, hmr, hl⟩ := h.complexSelector hr
  obtain ⟨m', ks', c, t, hch', hc, ht, rfl⟩ := complex_eq_ok hx
  cases hch.symm.trans hch'
  rw [nodesOf, hch, List.filter_cons_of_pos (by simpa using hmr)]
  exact .cons (typed_of_compound hm hmr hc) (typed_of_chain hl ht)

theorem typed_of_selectorList {list : SelectorList} (h : n.IsMatch) (hr : n.rule = .selectorList)
    (hlist : selectorList n = .ok list) :
    List.Forall₂ Typed (list.flatMap ComplexSelector.compounds) (compoundNodes n) := by
  rw [compoundNodes_list h hr]
  have hall : ∀ m ∈ nodesOf .complexSelector n, m.IsMatch ∧ m.rule = .complexSelector := fun m hm =>
    ⟨(h.child (mem_nodesOf.1 hm).1).2, (mem_nodesOf.1 hm).2⟩
  have hread := mapM_eq_ok.1 hlist
  change List.Forall₂ _ (nodesOf .complexSelector n) list at hread
  generalize nodesOf .complexSelector n = ms at hall hread
  clear hlist
  induction hread with
  | nil => exact .nil
  | cons hx _ ih =>
      obtain ⟨⟨hm, hmr⟩, hall⟩ := List.forall_mem_cons.1 hall
      rw [List.flatMap_cons, List.flatMap_cons]
      exact List.rel_append (typed_of_complex hm hmr hx) (ih hall)

end SelectorSyntax.Selector

namespace SelectorSyntax

open Grammar Selector OfNodes

variable {input : List Char} {d : Nat} {list : SelectorList}

/-- Each compound of a list that was read is the compound of one node, in the order of the text. Its type is universal
if the token is an asterisk, but also if the token is a name and that name is an escaped asterisk. -/
theorem universal_iff_of_parse (h : parseSelectorList input d = .ok list) :
    ∃ stop root, Rule.selectors.run input = some (stop, [root]) ∧
      List.Forall₂ Typed (list.flatMap ComplexSelector.compounds) (compoundNodes root) := by
  obtain ⟨root, hm, hs⟩ := parseSelectorList_eq_ok h
  obtain ⟨-, t, hrun⟩ := matchRoot_eq_ok hm
  obtain ⟨n, hn, hr, -, -, hroot⟩ := Rule.isMatch_of_run rfl hrun
  cases hn
  refine ⟨t, root, hrun, ?_⟩
  obtain ⟨l, hl, hnodes, hselectors⟩ := exists_selectorList hroot hr
  have hlr : l.rule = .selectorList := by
    have hmem : l ∈ Occurrence.nodesOf .selectorList root := hnodes ▸ List.mem_singleton_self l
    exact (Occurrence.mem_nodesOf.1 hmem).2
  rw [compoundNodes_root hroot hr, hnodes, List.flatMap_singleton]
  exact typed_of_selectorList hl hlr (hselectors ▸ hs)

/-- An asterisk, a name, an asterisk by its code, and no type at all. -/
theorem universal_iff_of_parse_escaped :
    ∃ list, parseSelectorList "*>b \\2a  .c".toList 1 = .ok list ∧
      ∃ stop root, Rule.selectors.run "*>b \\2a  .c".toList = some (stop, [root]) ∧
        List.Forall₂ Typed (list.flatMap ComplexSelector.compounds) (compoundNodes root) := by
  have h : parseSelectorList "*>b \\2a  .c".toList 1 = .ok [⟨⟨some "*", [], []⟩, [(.child, ⟨some "b", [], []⟩),
      (.descendant, ⟨some "*", [], []⟩), (.descendant, ⟨none, [.className "c"], []⟩)]⟩] := by cbv
  exact ⟨_, h, universal_iff_of_parse h⟩

/-- An escaped asterisk is written as a name, but the type that is read from it is universal. -/
theorem escaped_asterisk_is_universal :
    ∃ c u root, parseSelectorList "\\*".toList 1 = .ok [⟨c, []⟩] ∧
      Rule.selectors.run "\\*".toList = some ([], [root]) ∧
      (compoundNodes root).map typeToken? = [some u] ∧ u.rule = .ident ∧ u.rule ≠ .universal ∧
      c.type.map isUniversal = some true := by
  let u : Node := ⟨.ident, "\\*".toList, [], []⟩
  let compound : Node := ⟨.compoundSelector, "\\*".toList, [], [⟨.typeSelector, "\\*".toList, [], [u]⟩]⟩
  let list : Node := ⟨.selectorList, "\\*".toList, [], [⟨.complexSelector, "\\*".toList, [], [compound]⟩]⟩
  refine ⟨⟨some "*", [], []⟩, u, ⟨.selectors, "\\*".toList, [], [list, ⟨.endOfInput, [], [], []⟩]⟩, ?_, ?_, ?_, rfl,
    nofun, ?_⟩
  · cbv
  · cbv
  · rfl
  · decide

end SelectorSyntax
