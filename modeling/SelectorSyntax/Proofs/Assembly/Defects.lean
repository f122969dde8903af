import SelectorSyntax.Proofs.Assembly.Flaws

namespace SelectorSyntax.Selector

open Diagnostic Grammar Text OfNodes

variable {n : Node} {before : List Node}

/-! From one simple selector to the whole list. -/

theorem decides_foldlM {ns : List Node} {c : CompoundSelector} (hc : Tracks c before)
    (hns : ∀ n ∈ ns, n.IsMatch ∧ n.rule ∈ (body .compoundSelector).callees) :
    Decides (ns.foldlM addSimple c) (Occurrence.ofSimples before ns) := by
  induction ns generalizing c before with
  | nil => exact .pure c
  | cons n ns ih =>
      obtain ⟨hn, hns⟩ := List.forall_mem_cons.1 hns
      rw [List.foldlM_cons]
      exact (decides_addSimple hc hn.1 hn.2).bind fun c' hc' => ih (hc.adds hc') hns

theorem decides_compound (h : n.IsMatch) (hr : n.rule = .compoundSelector) :
    Decides (compound n) (Occurrence.ofSimples [] n.children) := by
  have hc : Tracks .empty [] := by simp [Tracks, CompoundSelector.empty, CompoundSelector.pseudoElement?]
  exact decides_foldlM hc fun m hm => hr ▸ (h.child hm).symm

theorem decides_chain {ns : List Node} (h : Links ns) : Decides (chain ns)
    ((ns.filter fun c => c.rule = .compoundSelector).flatMap fun c => Occurrence.ofSimples [] c.children) := by
  induction h with
  | nil => exact .pure []
  | @cons k c ns hk hkr hc hcr _ ih =>
      obtain ⟨x, hx⟩ := exists_combinator hk hkr
      rw [chain, hx, List.filter_cons_of_neg (by simp [hkr]), List.filter_cons_of_pos (by simp [hcr]),
        List.flatMap_cons]
      exact (decides_compound hc hcr).bind fun y _ => ih.bind_ok

theorem decides_complex (h : n.IsMatch) (hr : n.rule = .complexSelector) :
    Decides (complex n) (Occurrence.ofComplex n) := by
  obtain ⟨c, ns, hch, hc, hcr, hns⟩ := h.complexSelector hr
  rw [complex, Occurrence.ofComplex, Occurrence.nodesOf, hch, List.filter_cons_of_pos (by simp [hcr]),
    List.flatMap_cons]
  exact (decides_compound hc hcr).bind fun y _ => (decides_chain hns).bind_ok

theorem decides_selectorList (h : n.IsMatch) :
    Decides (selectorList n) ((Occurrence.nodesOf .complexSelector n).flatMap Occurrence.ofComplex) := by
  refine .mapM fun x hx => ?_
  obtain ⟨hx, hxr⟩ := List.mem_filter.1 hx
  exact decides_complex (h.child hx).2 (by simpa using hxr)

/-- The rule for whole texts has one list. -/
theorem exists_selectorList (h : n.IsMatch) (hr : n.rule = .selectors) :
    ∃ l : Node, l.IsMatch ∧ Occurrence.nodesOf .selectorList n = [l] ∧ selectors n = selectorList l := by
  have hs : n.children.map Node.rule = [.selectorList, .endOfInput] := by
    have hsub : (body .selectors).shapes ⊆ [[.selectorList, .endOfInput]] := by decide
    exact List.mem_singleton.1 (hsub (h.shape hr rfl rfl))
  obtain ⟨l, ns, hch, hl, hs⟩ := List.map_eq_cons_iff.1 hs
  obtain ⟨e, rfl, he⟩ := List.map_eq_singleton_iff.1 hs
  have hchild : child? n .selectorList = some l := by simp [child?, hch, hl]
  refine ⟨l, (h.child (hch ▸ List.mem_cons_self)).2, by simp [Occurrence.nodesOf, hch, hl, he], ?_⟩
  rw [selectors, hchild]

theorem decides_selectors (h : n.IsMatch) (hr : n.rule = .selectors) :
    Decides (selectors n) (Occurrence.ofRoot n) := by
  obtain ⟨l, hl, hnodes, hselectors⟩ := exists_selectorList h hr
  rw [hselectors, Occurrence.ofRoot, hnodes, List.flatMap_singleton]
  exact decides_selectorList hl

/-! The list has all simple selectors of a match, in the order of the text. -/

namespace Occurrence

variable {root m : Node} {r q : Rule}

theorem mem_nodesOf : m ∈ nodesOf r n ↔ m ∈ n.children ∧ m.rule = r := by
  simp [nodesOf]

theorem map_ofSimples (before ns : List Node) : (ofSimples before ns).map simple = ns := by
  induction ns generalizing before with
  | nil => rfl
  | cons n ns ih => rw [ofSimples, List.map_cons, ih]

theorem ordered_flatMap {f : Node → List Node} (h : n.IsMatch)
    (hf : ∀ m : Node, m.IsMatch → Ordered m.start m.stop (f m)) :
    Ordered n.start n.stop ((nodesOf r n).flatMap f) :=
  (h.ordered.filter _).flatMap fun m hm => hf m (h.child (mem_nodesOf.1 hm).1).2

theorem ordered_ofRoot (h : root.IsMatch) : Ordered root.start root.stop ((ofRoot root).map simple) := by
  simp only [ofRoot, ofComplex, List.map_flatMap, map_ofSimples]
  exact ordered_flatMap h fun l hl => ordered_flatMap hl fun x hx => ordered_flatMap hx fun c hc => hc.ordered

/-- A rule has its nodes under nodes of the rules that call it. -/
theorem exists_parent {P : Rule → Prop} (h : root.IsMatch) (hm : m ∈ root.family) (hr : root.rule ≠ m.rule)
    (hP : ∀ p : Rule, p.isSilent = false → m.rule ∈ (body p).callees → P p) :
    ∃ p ∈ root.family, P p.rule ∧ m ∈ p.children := by
  rcases Node.mem_family root m hm with rfl | ⟨p, hp, hmp⟩
  · exact absurd rfl hr
  · have hpm := h.family root p hp
    exact ⟨p, hp, hP p.rule hpm.1 (hpm.child hmp).1, hmp⟩

/-- Each rule from the simple selectors up to the root is called by the next one alone. -/
theorem mem_ofRoot (h : root.IsMatch) (hr : root.rule = .selectors) (hm : m ∈ root.family)
    (hmr : m.rule ∈ (body .compoundSelector).callees) : m ∈ (ofRoot root).map simple := by
  have hsimple : ∀ p : Rule, p.isSilent = false → ∀ r ∈ (body .compoundSelector).callees,
      r ∈ (body p).callees → p = .compoundSelector := by
    intro p
    cases p <;> decide
  have hcompound : ∀ p : Rule, p.isSilent = false → .compoundSelector ∈ (body p).callees → p = .complexSelector := by
    intro p
    cases p <;> decide
  have hcomplex : ∀ p : Rule, p.isSilent = false → .complexSelector ∈ (body p).callees → p = .selectorList := by
    intro p
    cases p <;> decide
  have hlist : ∀ p : Rule, p.isSilent = false → .selectorList ∈ (body p).callees → p = .selectors := by
    intro p
    cases p <;> decide
  have hroot : ∀ p : Rule, .selectors ∉ (body p).callees := by
    intro p
    cases p <;> decide
  have hne : root.rule ≠ m.rule := fun heq => hroot _ (hr ▸ heq ▸ hmr)
  obtain ⟨c, hc, hcr, hmc⟩ := exists_parent h hm hne fun p hp => hsimple p hp _ hmr
  obtain ⟨x, hx, hxr, hcx⟩ := exists_parent h hc (by rw [hr, hcr]; exact nofun) (hcr ▸ hcompound)
  obtain ⟨l, hl, hlr, hxl⟩ := exists_parent h hx (by rw [hr, hxr]; exact nofun) (hxr ▸ hcomplex)
  obtain ⟨k, hk, hkr, hlk⟩ := exists_parent h hl (by rw [hr, hlr]; exact nofun) (hlr ▸ hlist)
  obtain rfl : k = root := by
    rcases Node.mem_family root k hk with hk | ⟨p, hp, hkp⟩
    · exact hk
    · exact absurd (hkr ▸ ((h.family root p hp).child hkp).1) (hroot p.rule)
  simp only [ofRoot, ofComplex, List.map_flatMap, map_ofSimples, List.mem_flatMap, mem_nodesOf]
  exact ⟨l, ⟨hlk, hlr⟩, x, ⟨hxl, hxr⟩, c, ⟨hcx, hcr⟩, hmc⟩

end Occurrence

/-! The reports. -/

/-- The help of errors that no text should lead to. -/
def internalHelp : String := "internal parser error, please report the selector"

theorem misshapen_help (input place : List Char) :
    (SyntaxError.ofDefect input (.misshapen place)).help = some internalHelp := rfl

theorem helpFor_ne (positives : List Rule) (atEnd : Bool) :
    SyntaxError.helpFor positives atEnd ≠ some internalHelp := by
  rw [SyntaxError.helpFor]
  split
  next => decide
  next =>
    split
    next => decide
    next =>
      split
      next => decide
      next => decide

theorem help?_ne (k : Kind) : k.help? ≠ some internalHelp := by
  cases k <;> decide

theorem ofAttempts_help (input : List Char) (offset : Nat) (positives negatives : List Rule)
    (brackets : Bracket.Report) :
    (SyntaxError.ofAttempts input offset positives negatives brackets).help ≠ some internalHelp := by
  intro h
  rw [SyntaxError.ofAttempts, Option.or_eq_some_iff] at h
  rcases h with h | ⟨-, h⟩
  · exact help?_ne _ h
  · exact helpFor_ne _ _ h

theorem Occurrence.Has.help {o : Occurrence} {D : Defect} (h : o.Has D) (input : List Char) :
    (SyntaxError.ofDefect input D).help ≠ some internalHelp := by
  cases h with
  | afterElement => exact help?_ne .pseudoElementNotLast
  | outOfRange => exact help?_ne .numberOutOfRange
  | notNth => exact ofAttempts_help _ _ _ _ _

end SelectorSyntax.Selector

namespace SelectorSyntax

open Diagnostic Grammar Selector

variable {input : List Char} {d : Nat} {r : Rule} {e : SyntaxError}

/-- What reading a text fails with: a bracket that is one too many, a rule that does not match, or a flawed simple
selector. -/
inductive FailsWith (input : List Char) (d : Nat) : SyntaxError → Prop
  | tooDeep {x} : Bracket.scan input d = .error x → FailsWith input d (.tooDeep input x.offset d)
  | unmatched {r report} : r ∈ [Rule.selectors, .text] → Bracket.scan input d = .ok report → r.run input = none →
      FailsWith input d (.ofAttempts input (Text.Place.offsetOf input (r.failure input).place)
        (r.failure input).positives (r.failure input).negatives report)
  | flawed {root o D} : root.IsMatch → root.start = input → o ∈ Occurrence.ofRoot root → o.Has D →
      FailsWith input d (.ofDefect input D)

theorem failsWith_of_matchRoot (hr : r ∈ [Rule.selectors, .text]) (h : matchRoot r input d = .error e) :
    FailsWith input d e := by
  have hnode : ∀ q ∈ [Rule.selectors, .text], q.isSilent = false := by decide
  rw [matchRoot] at h
  split at h
  next x hx =>
    cases h
    exact .tooDeep hx
  next report hs =>
    rw [Rule.parse] at h
    cases hrun : r.run input with
    | none =>
        rw [hrun] at h
        cases h
        exact .unmatched hr hs hrun
    | some x =>
        obtain ⟨t, ns⟩ := x
        obtain ⟨n, rfl, -⟩ := Rule.isMatch_of_run (hnode r hr) hrun
        rw [hrun] at h
        cases h

theorem failsWith_of_parseSelectorList (h : parseSelectorList input d = .error e) : FailsWith input d e := by
  rw [parseSelectorList] at h
  cases hm : matchRoot .selectors input d with
  | error x =>
      rw [hm] at h
      cases h
      exact failsWith_of_matchRoot (by decide) hm
  | ok root =>
      rw [hm] at h
      obtain ⟨-, t, hrun⟩ := matchRoot_eq_ok hm
      obtain ⟨n, hn, hr, hstart, -, hroot⟩ := Rule.isMatch_of_run rfl hrun
      cases hn
      rcases (decides_selectors hroot hr).result with ⟨-, v, hv⟩ | ⟨before, o, after, D, hos, -, ho, hv⟩
      · rw [Except.bind, hv] at h
        cases h
      · rw [Except.bind, hv] at h
        cases h
        exact .flawed hroot hstart (hos ▸ List.mem_append_right before List.mem_cons_self) ho

theorem failsWith_of_parseTextFragment (h : parseTextFragment input d = .error e) : FailsWith input d e := by
  cases hm : matchRoot .text input d with
  | error x =>
      rw [parseTextFragment, hm] at h
      cases h
      exact failsWith_of_matchRoot (by decide) hm
  | ok root =>
      obtain ⟨⟨report, hs⟩, t, hrun⟩ := matchRoot_eq_ok hm
      obtain ⟨v, hv⟩ := exists_parseTextFragment hs hrun
      rw [hv] at h
      cases h

theorem failsWith_of_parseWith {input : String} {options : ParseOptions} (h : parseWith input options = .error e) :
    FailsWith input.toList options.maxDepth e := by
  rw [parseWith] at h
  cases hr : options.startRule with
  | selectors =>
      rw [hr] at h
      cases hp : parseSelectorList input.toList options.maxDepth with
      | ok l =>
          rw [hp] at h
          cases h
      | error x =>
          rw [hp] at h
          cases h
          exact failsWith_of_parseSelectorList hp
  | text =>
      rw [hr] at h
      cases hp : parseTextFragment input.toList options.maxDepth with
      | ok v =>
          rw [hp] at h
          cases h
      | error x =>
          rw [hp] at h
          cases h
          exact failsWith_of_parseTextFragment hp

/-- What becomes of a match of the rule for lists. -/
structure ReportsFirst (input : List Char) (d : Nat) (stop : List Char) (root : Node) : Prop where
  ordered : Ordered input stop ((Occurrence.ofRoot root).map Occurrence.simple)
  complete : ∀ m ∈ root.family, m.rule ∈ (body .compoundSelector).callees →
    m ∈ (Occurrence.ofRoot root).map Occurrence.simple
  outcome : (∀ o ∈ Occurrence.ofRoot root, ¬ o.Flawed) ∧ (∃ list, parseSelectorList input d = .ok list) ∨
    ∃ before o after e, Occurrence.ofRoot root = before ++ o :: after ∧ (∀ p ∈ before, ¬ p.Flawed) ∧ o.Flawed ∧
      parseSelectorList input d = .error e ∧ o.Reports input e
  shaped : ∀ place, OfNodes.selectors root ≠ .error (.misshapen place)
  help : ∀ e, parseSelectorList input d = .error e → e.help ≠ some internalHelp

theorem reportsFirst_of_run {input t : List Char} {d : Nat} {report : Bracket.Report} {ns : List Node}
    (hs : Bracket.scan input d = .ok report) (h : Rule.selectors.run input = some (t, ns)) :
    ∃ root, ns = [root] ∧ ReportsFirst input d t root := by
  obtain ⟨root, rfl, hr, hstart, hstop, hroot⟩ := Rule.isMatch_of_run rfl h
  have hordered := Occurrence.ordered_ofRoot hroot
  rw [hstart, hstop] at hordered
  have hparse : parseSelectorList input d = (OfNodes.selectors root).mapError (.ofDefect input) := by
    rw [parseSelectorList, matchRoot_of_run hs h]
    rfl
  refine ⟨root, rfl, hordered, fun m => Occurrence.mem_ofRoot hroot hr, ?_, fun place he => ?_, fun e he => ?_⟩
  all_goals rcases (decides_selectors hroot hr).result with ⟨hos, list, hx⟩ | ⟨before, o, after, D, hos, hb, ho, hx⟩
  · exact Or.inl ⟨hos, list, by rw [hparse, hx]; rfl⟩
  · exact Or.inr ⟨before, o, after, _, hos, hb, ho.flawed, by rw [hparse, hx]; rfl, ho.reports input⟩
  · cases hx.symm.trans he
  · cases hx.symm.trans he
    exact ho.help input (misshapen_help input place)
  · rw [hparse, hx] at he
    cases he
  · rw [hparse, hx] at he
    cases he
    exact ho.help input

/-- Where the scan passes and the grammar matches, reading fails for flaws of simple selectors alone, and for the
first of them. -/
theorem reportsFirst_of_match {input : List Char} {d : Nat} {report : Bracket.Report}
    (hs : Bracket.scan input d = .ok report) :
    (∀ t ns, Rule.selectors.run input = some (t, ns) → ∃ root, ns = [root] ∧ ReportsFirst input d t root) ∧
    (∀ x, Rule.text.run input = some x → ∃ v, parseTextFragment input d = .ok v) ∧
    ∀ r s t ns, r.isSilent = false → Rule.run r s = some (t, ns) → ∀ m ∈ Node.familyOfAll ns, OfNodes.Legible m := by
  refine ⟨fun t ns h => reportsFirst_of_run hs h, fun x h => exists_parseTextFragment hs h, ?_⟩
  intro r s t ns hr h m hm
  obtain ⟨n, rfl, -, -, -, hn⟩ := Rule.isMatch_of_run hr h
  exact OfNodes.legible (Node.isMatch_familyOfAll [n] (List.forall_mem_singleton.2 hn) m hm)

/-- A class behind a pseudo-element. -/
theorem reportsFirst_of_match_element :
    ∃ t root, Rule.selectors.run "a::b.c".toList = some (t, [root]) ∧ ReportsFirst "a::b.c".toList 0 t root := by
  have hs : Bracket.scan "a::b.c".toList 0 = .ok .empty := by cbv
  have hrun : (Rule.selectors.run "a::b.c".toList).isSome = true := by cbv
  obtain ⟨⟨t, ns⟩, hrun⟩ := Option.isSome_iff_exists.1 hrun
  obtain ⟨root, rfl, hroot⟩ := (reportsFirst_of_match hs).1 t ns hrun
  exact ⟨t, root, hrun, hroot⟩

end SelectorSyntax
