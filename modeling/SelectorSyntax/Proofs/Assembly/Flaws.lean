import SelectorSyntax.Proofs.Assembly.Totality
import SelectorSyntax.Proofs.Spelling.NthNames
import SelectorSyntax.Proofs.Spelling.NthRange

namespace SelectorSyntax.Selector

open Diagnostic Grammar Text OfNodes

/-- A simple selector and those before it in its compound. -/
structure Occurrence where
  before : List Node
  simple : Node

namespace Occurrence

def ofSimples : List Node → List Node → List Occurrence
  | _, [] => []
  | before, n :: ns => ⟨before, n⟩ :: ofSimples (before ++ [n]) ns

def nodesOf (r : Rule) (n : Node) : List Node := n.children.filter fun c => c.rule = r

def ofComplex (n : Node) : List Occurrence :=
  (nodesOf .compoundSelector n).flatMap fun c => ofSimples [] c.children

/-- The simple selectors in a match of the rule for lists, from left to right. -/
def ofRoot (root : Node) : List Occurrence :=
  (nodesOf .selectorList root).flatMap fun l => (nodesOf .complexSelector l).flatMap ofComplex

/-- An `nth` name that has escapes in it, and the argument behind it. -/
structure EscapedNth (simple name argument : Node) : Prop where
  children : simple.children = [name, argument]
  ident : name.rule = .ident
  arguments : argument.rule = .arguments
  escape : '\\' ∈ name.text
  decodes : ∃ v, Identifier.decode name.text = .ok v ∧ AnPlusB.isPseudoName (String.ofList v) = true

/-- What is written between the parentheses of an `nth` name, and its place in the text. -/
inductive NthWritten (simple : Node) : List Char → List Char → Prop
  | plain {name a v} : simple.children = [name, a] → a.rule = .nthArguments → child? a .nthValue = some v →
      NthWritten simple v.start v.text
  | escaped {name a m v} : EscapedNth simple name a → Rule.nthArguments.run a.text = some ([], [m]) →
      child? m .nthValue = some v → NthWritten simple (v.start ++ a.stop) v.text

variable (o : Occurrence)

def AfterElement : Prop := ∃ m ∈ o.before, m.rule = .pseudoElement

def OutOfRange : Prop := ∃ place written, NthWritten o.simple place written ∧ Spelling.Exceeds written

/-- The name takes a number, and the argument is not one or not as a whole. -/
def NotNth : Prop :=
  ∃ name a, EscapedNth o.simple name a ∧ ∀ ns, Rule.nthArguments.run a.text ≠ some ([], ns)

def Flawed : Prop := o.AfterElement ∨ o.OutOfRange ∨ o.NotNth

/-- What a flawed simple selector is reported as. That it stands behind a pseudo-element comes first. -/
inductive Reports (input : List Char) : SyntaxError → Prop
  | afterElement {e} : o.AfterElement → e.kind = .pseudoElementNotLast →
      e.location = .ofOffsets input (Place.offsetOf input o.simple.start) (Place.offsetOf input o.simple.stop) →
      Reports input e
  | outOfRange {e place written} : ¬ o.AfterElement → NthWritten o.simple place written →
      Spelling.Exceeds written → e.kind = .numberOutOfRange →
      e.location = .ofOffsets input (Place.offsetOf input place) (Place.offsetOf input place + Place.byteSize written) →
      Reports input e
  | notNth {name a} : ¬ o.AfterElement → EscapedNth o.simple name a →
      (∀ ns, Rule.nthArguments.run a.text ≠ some ([], ns)) →
      Reports input (.ofAttempts input (Place.offsetOf input ((Rule.nthArguments.failure a.text).place ++ a.stop))
        (Rule.nthArguments.failure a.text).positives (Rule.nthArguments.failure a.text).negatives .empty)

/-- What reading fails with because of a flawed simple selector. -/
inductive Has : Defect → Prop
  | afterElement {element} : o.AfterElement → Has (.afterPseudoElement element o.simple)
  | outOfRange {place written} : ¬ o.AfterElement → NthWritten o.simple place written → Spelling.Exceeds written →
      Has (.outOfRange place written)
  | notNth {name a} : ¬ o.AfterElement → EscapedNth o.simple name a →
      (∀ ns, Rule.nthArguments.run a.text ≠ some ([], ns)) →
      Has (.notNth { Rule.nthArguments.failure a.text with
        place := (Rule.nthArguments.failure a.text).place ++ a.stop })

variable {o} {simple name name' a a' : Node} {place place' written written' : List Char}

theorem EscapedNth.unique (h : EscapedNth simple name a) (h' : EscapedNth simple name' a') :
    name' = name ∧ a' = a := by
  have heq := h'.children.symm.trans h.children
  simpa using heq

theorem EscapedNth.not_plain (h : EscapedNth simple name a) (hch : simple.children = [name', a']) :
    a'.rule ≠ .nthArguments := by
  have heq := hch.symm.trans h.children
  cases heq
  rw [h.arguments]
  exact nofun

/-- A simple selector has one number at most. -/
theorem NthWritten.unique (h : NthWritten simple place written) (h' : NthWritten simple place' written') :
    place' = place ∧ written' = written := by
  cases h with
  | plain hch har hv =>
      cases h' with
      | plain hch' _ hv' =>
          cases hch'.symm.trans hch
          cases hv'.symm.trans hv
          exact ⟨rfl, rfl⟩
      | escaped he => exact absurd har (he.not_plain hch)
  | escaped he hrun hv =>
      cases h' with
      | plain hch har => exact absurd har (he.not_plain hch)
      | escaped he' hrun' hv' =>
          obtain ⟨rfl, rfl⟩ := he.unique he'
          cases hrun'.symm.trans hrun
          cases hv'.symm.trans hv
          exact ⟨rfl, rfl⟩

theorem NthWritten.not_notNth (h : NthWritten o.simple place written) : ¬ o.NotNth := by
  rintro ⟨name, a, he, hn⟩
  cases h with
  | plain hch har => exact he.not_plain hch har
  | escaped he' hrun =>
      obtain ⟨rfl, rfl⟩ := he.unique he'
      exact hn _ hrun

theorem Has.flawed {D : Defect} (h : o.Has D) : o.Flawed := by
  cases h with
  | afterElement ha => exact Or.inl ha
  | outOfRange _ hw hx => exact Or.inr (Or.inl ⟨_, _, hw, hx⟩)
  | notNth _ he hn => exact Or.inr (Or.inr ⟨_, _, he, hn⟩)

theorem Has.reports {D : Defect} (h : o.Has D) (input : List Char) : o.Reports input (.ofDefect input D) := by
  cases h with
  | afterElement ha => exact .afterElement ha rfl rfl
  | outOfRange ha hw hx => exact .outOfRange ha hw hx rfl rfl
  | notNth ha he hn => exact .notNth ha he hn

end Occurrence

/-- Reading has a result if none of the simple selectors is flawed, and else fails because of the first that is. -/
inductive Decides {α : Type} : Result α → List Occurrence → Prop
  | ok {v os} : (∀ o ∈ os, ¬ o.Flawed) → Decides (.ok v) os
  | error {before o after D} : (∀ p ∈ before, ¬ p.Flawed) → o.Has D → Decides (.error D) (before ++ o :: after)

variable {α β : Type} {x : Result α} {os os' : List Occurrence} {n : Node} {before : List Node}

theorem Decides.result (h : Decides x os) :
    (∀ o ∈ os, ¬ o.Flawed) ∧ (∃ v, x = .ok v) ∨
      ∃ before o after D, os = before ++ o :: after ∧ (∀ p ∈ before, ¬ p.Flawed) ∧ o.Has D ∧ x = .error D := by
  cases h with
  | ok hos => exact Or.inl ⟨hos, _, rfl⟩
  | error hb ho => exact Or.inr ⟨_, _, _, _, rfl, hb, ho, rfl⟩

theorem Decides.bind {f : α → Result β} (hx : Decides x os) (hf : ∀ v, x = .ok v → Decides (f v) os') :
    Decides (x >>= f) (os ++ os') := by
  cases hx with
  | @ok v _ hos =>
      have h := hf v rfl
      change Decides (f v) (os ++ os')
      generalize f v = y at h
      cases h with
      | ok hos' => exact .ok (List.forall_mem_append.2 ⟨hos, hos'⟩)
      | error hb ho =>
          rw [← List.append_assoc]
          exact .error (List.forall_mem_append.2 ⟨hos, hb⟩) ho
  | error hb ho =>
      rw [List.append_assoc, List.cons_append]
      exact .error hb ho

theorem Decides.pure (v : α) : Decides (.ok v) [] := .ok (by simp)

theorem Decides.map {f : α → β} (hx : Decides x os) : Decides (x.map f) os := by
  cases hx with
  | ok hos => exact .ok hos
  | error hb ho => exact .error hb ho

/-- What is put together at the end cannot fail. -/
theorem Decides.bind_ok {f : α → β} (hx : Decides x os) : Decides (x >>= fun v => .ok (f v)) os := by
  rw [← List.append_nil os]
  exact hx.bind fun v _ => .pure (f v)

theorem Decides.single {o : Occurrence} {D : Defect} (ho : o.Has D) : Decides (.error D : Result α) [o] :=
  @Decides.error α [] o [] D (by simp) ho

theorem Decides.mapM {γ : Type} {f : γ → Result α} {g : γ → List Occurrence} {xs : List γ}
    (h : ∀ x ∈ xs, Decides (f x) (g x)) : Decides (xs.mapM f) (xs.flatMap g) := by
  induction xs with
  | nil => exact .pure []
  | cons x xs ih =>
      obtain ⟨hx, hxs⟩ := List.forall_mem_cons.1 h
      rw [List.mapM_cons, List.flatMap_cons]
      exact hx.bind fun v _ => (ih hxs).bind_ok

/-! One simple selector. -/

theorem nthText_cases (place : List Char) {written : List Char} (h : Spelling.Nth written) :
    (∃ v, nthText place written = .ok v) ∧ ¬ Spelling.Exceeds written ∨
      nthText place written = .error (.outOfRange place written) ∧ Spelling.Exceeds written := by
  have hread := Spelling.read_normalize written
  rw [← Spelling.read_eq_outOfRange_iff h]
  cases hw : AnPlusB.read written with
  | ok x =>
      exact Or.inl ⟨⟨.text (String.ofList (AnPlusB.normalize written)), by simp only [nthText, hread, hw]⟩, nofun⟩
  | error e =>
      cases e with
      | invalid => exact absurd hw (Spelling.read_ne_invalid h)
      | outOfRange => exact Or.inr ⟨by simp only [nthText, hread, hw], rfl⟩

theorem exists_nthValue (h : n.IsMatch) (hr : n.rule = .nthArguments) :
    ∃ v, child? n .nthValue = some v ∧ Spelling.Nth v.text := by
  have hs : n.children.map Node.rule = [.nthValue, .parenClose] := by
    have hsub : (body .nthArguments).shapes ⊆ [[.nthValue, .parenClose]] := by decide
    exact List.mem_singleton.1 (hsub (h.shape hr rfl rfl))
  obtain ⟨v, ns, hch, hv, -⟩ := List.map_eq_cons_iff.1 hs
  have hm := (h.child (hch ▸ List.mem_cons_self)).2
  have hrun := hm.2
  rw [hv] at hrun
  exact ⟨v, by simp [child?, hch, hv], Spelling.nth_of_run hrun hm.text_append.symm⟩

theorem not_flawed {o : Occurrence} (ha : ¬ o.AfterElement)
    (hn : ∀ m ∈ o.simple.children, m.rule ≠ .nthArguments) (he : ∀ name a, ¬ Occurrence.EscapedNth o.simple name a) :
    ¬ o.Flawed := by
  rintro (hafter | ⟨place, written, hw, -⟩ | ⟨name, a, hname, -⟩)
  · exact ha hafter
  · cases hw with
    | plain hch har => exact hn _ (by simp [hch]) har
    | escaped hname => exact he _ _ hname
  · exact he name a hname

theorem Decides.nthText {o : Occurrence} (ha : ¬ o.AfterElement) {place written : List Char}
    (hw : Occurrence.NthWritten o.simple place written) (hnth : Spelling.Nth written) :
    Decides (OfNodes.nthText place written) [o] := by
  rcases nthText_cases place hnth with ⟨⟨v, hv⟩, hx⟩ | ⟨hv, hx⟩
  · rw [hv]
    refine .ok (List.forall_mem_singleton.2 ?_)
    rintro (hafter | ⟨p, w, hpw, hpx⟩ | hnot)
    · exact ha hafter
    · rw [(hw.unique hpw).2] at hpx
      exact hx hpx
    · exact hw.not_notNth hnot
  · rw [hv]
    exact .single (.outOfRange ha hw hx)

theorem decides_plain {o : Occurrence} {m a : Node} (ha : ¬ o.AfterElement) (hch : o.simple.children = [m, a])
    (ham : a.IsMatch) (har : a.rule = .nthArguments) : Decides (nthParameter a) [o] := by
  obtain ⟨v, hv, hnth⟩ := exists_nthValue ham har
  rw [nthParameter, hv]
  exact .nthText ha (.plain hch har hv) hnth

theorem decides_escaped {o : Occurrence} {m a : Node} (ha : ¬ o.AfterElement)
    (he : Occurrence.EscapedNth o.simple m a) (ham : a.IsMatch) : Decides (escapedNthParameter a) [o] := by
  rw [escapedNthParameter, Rule.parse]
  cases hrun : Rule.nthArguments.run a.text with
  | none => exact .single (.notNth ha he (by simp [hrun]))
  | some x =>
      obtain ⟨t, ns⟩ := x
      obtain rfl := Spelling.eq_nil_of_run_nthArguments ham he.arguments hrun
      obtain ⟨k, rfl, hkr, -, -, hk⟩ := Rule.isMatch_of_run rfl hrun
      obtain ⟨v, hv, hnth⟩ := exists_nthValue hk hkr
      simp only [hv]
      exact .nthText ha (.escaped he hrun hv) hnth

/-- The argument of a name that is no `nth` name, or is one with escapes. -/
theorem decides_arguments {o : Occurrence} {m a : Node} {v : List Char} (ha : ¬ o.AfterElement)
    (hch : o.simple.children = [m, a]) (hmr : m.rule = .ident) (ham : a.IsMatch) (har : a.rule = .arguments)
    (hv : Identifier.decode m.text = .ok v)
    (hesc : AnPlusB.isPseudoName (String.ofList v) = true → '\\' ∈ m.text) :
    Decides (pseudoParameter (String.ofList v) a) [o] := by
  rw [pseudoParameter, har]
  by_cases hnth : AnPlusB.isPseudoName (String.ofList v) = true
  · rw [if_pos hnth]
    exact decides_escaped ha ⟨hch, hmr, har, hesc hnth, v, hv, hnth⟩ ham
  · obtain ⟨ps, hps⟩ := exists_argumentItems ham
    rw [if_neg hnth, hps]
    refine .ok (List.forall_mem_singleton.2 (not_flawed ha ?_ ?_))
    · simp [hch, hmr, har]
    · intro name b he
      cases hch.symm.trans he.children
      obtain ⟨w, hw, hwn⟩ := he.decodes
      cases hv.symm.trans hw
      exact hnth hwn

theorem decides_pseudo {o : Occurrence} (h : Spelling.PseudoNodes o.simple.children) (ha : ¬ o.AfterElement) :
    Decides (pseudo o.simple) [o] := by
  generalize hch : o.simple.children = ns at h
  rw [pseudo, hch]
  cases h with
  | @plain m a _ hmr ham har =>
      have hname : pseudoName m = .ok (String.ofList m.text) := by rw [pseudoName, hmr]
      have hparameter : pseudoParameter (String.ofList m.text) a = nthParameter a := by rw [pseudoParameter, har]
      have hd := decides_plain ha hch ham har
      rw [← hparameter] at hd
      simp only [hname]
      exact hd.bind_ok
  | @bare m hm hmr =>
      obtain ⟨v, hv⟩ := exists_identifier hm hmr
      have hname : pseudoName m = .ok v := by rw [pseudoName, hmr, hv]
      simp only [hname]
      refine .ok (List.forall_mem_singleton.2 (not_flawed ha ?_ ?_))
      · simp [hch, hmr]
      · intro name a he
        cases hch.symm.trans he.children
  | @function m a hm hmr ham har hesc =>
      obtain ⟨v, hv⟩ := (legible hm).ident hmr
      have hname : pseudoName m = .ok (String.ofList v) := by rw [pseudoName, hmr, identifier, hv]
      simp only [hname]
      exact (decides_arguments ha hch hmr ham har hv (hesc v hv)).bind_ok

/-- What has been read of a compound tells whether a pseudo-element is among the simple selectors so far. -/
def Tracks (c : CompoundSelector) (before : List Node) : Prop :=
  c.pseudoElement?.isSome = true ↔ ∃ m ∈ before, m.rule = .pseudoElement

theorem Tracks.adds {c c' : CompoundSelector} (hc : Tracks c before) (h : addSimple c n = .ok c') :
    Tracks c' (before ++ [n]) := by
  obtain ⟨hnone, hadds⟩ := addSimple_eq_ok h
  have hbefore : ¬ ∃ m ∈ before, m.rule = .pseudoElement := fun hm => by
    have hsome := hc.2 hm
    rw [hnone] at hsome
    cases hsome
  have hlast : (∃ m ∈ before ++ [n], m.rule = .pseudoElement) ↔ n.rule = .pseudoElement := by
    simp only [List.mem_append, List.mem_singleton]
    constructor
    · rintro ⟨m, hm | rfl, hr⟩
      · exact absurd ⟨m, hm, hr⟩ hbefore
      · exact hr
    · exact fun hr => ⟨n, Or.inr rfl, hr⟩
  rw [Tracks, hlast]
  cases hadds with
  | type hr | id hr | className hr | attributeTest hr | pseudoClass hr =>
      have hkeep : c.pseudoElement?.isSome = false := by rw [hnone]; rfl
      rw [hr]
      refine ⟨fun hs => ?_, nofun⟩
      cases hkeep.symm.trans hs
  | pseudoElement hr =>
      rw [hr]
      simp [CompoundSelector.pseudoElement?, TrailingPseudo.element?]

theorem decides_addSimple {c : CompoundSelector} (hc : Tracks c before) (hn : n.IsMatch)
    (hr : n.rule ∈ (body .compoundSelector).callees) : Decides (addSimple c n) [⟨before, n⟩] := by
  rw [addSimple]
  cases he : c.pseudoElement? with
  | some e => exact .single (.afterElement (hc.1 (by rw [he]; rfl)))
  | none =>
      have ha : ¬ Occurrence.AfterElement ⟨before, n⟩ := fun h => by
        have hsome := hc.2 h
        rw [he] at hsome
        cases hsome
      have hplain (hargs : .nthArguments ∉ (body n.rule).callees ∧ .arguments ∉ (body n.rule).callees) :
          ∀ o ∈ [(⟨before, n⟩ : Occurrence)], ¬ o.Flawed :=
        List.forall_mem_singleton.2 (not_flawed ha (fun m hm hmr => hargs.1 (hmr ▸ (hn.child hm).1)) fun name a he =>
          hargs.2 (he.arguments ▸ (hn.child (by rw [he.children]; simp)).1))
      have hsub : (body .compoundSelector).callees ⊆
          [.typeSelector, .idSelector, .classSelector, .attributeSelector, .pseudoClass, .pseudoElement] := by decide
      have hr := hsub hr
      simp only [List.mem_cons, List.not_mem_nil, or_false] at hr
      rcases hr with hr | hr | hr | hr | hr | hr
      · obtain ⟨v, hv⟩ := exists_typeName hn hr
        simp only [hr, hv]
        exact .ok (hplain (by rw [hr]; decide))
      · obtain ⟨v, hv⟩ := exists_markedName hn (Or.inl hr)
        simp only [hr, hv]
        exact .ok (hplain (by rw [hr]; decide))
      · obtain ⟨v, hv⟩ := exists_markedName hn (Or.inr hr)
        simp only [hr, hv]
        exact .ok (hplain (by rw [hr]; decide))
      · obtain ⟨v, hv⟩ := exists_attributeSelector hn hr
        simp only [hr, hv]
        exact .ok (hplain (by rw [hr]; decide))
      · have hnodes := Spelling.pseudoNodes_of_isMatch hn (Or.inl hr)
        simp only [hr]
        exact (decides_pseudo hnodes ha).map
      · have hnodes := Spelling.pseudoNodes_of_isMatch hn (Or.inr hr)
        simp only [hr]
        exact (decides_pseudo hnodes ha).map

end SelectorSyntax.Selector
