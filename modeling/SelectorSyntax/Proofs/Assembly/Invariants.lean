import SelectorSyntax.Proofs.Assembly.Totality
import SelectorSyntax.Proofs.Spelling.NthRange
import SelectorSyntax.Proofs.Spelling.Soundness

namespace SelectorSyntax.Selector

open Grammar Text

namespace Parameter

def space : Parameter := .text " "

/-- No item of a list is empty, and no space follows a space. -/
structure Spaced (ps : List Parameter) : Prop where
  nonempty : .text "" ∉ ps
  apart : ¬ [space, space] <:+: ps

/-- No space begins or ends the items. -/
structure Trimmed (ps : List Parameter) : Prop where
  head : ps.head? ≠ some space
  last : ps.getLast? ≠ some space

/-- A list inside a list is a group between its brackets. -/
inductive Grouped : Parameter → Prop
  | text {t} : Grouped (.text t)
  | group {o c ps} : (o, c) ∈ [("(", ")"), ("[", "]")] → Trimmed ps → Spaced (.text o :: (ps ++ [.text c])) →
      (∀ p ∈ ps, Grouped p) → Grouped (.list (.text o :: (ps ++ [.text c])))

/-- The items of an argument. -/
structure Tidy (ps : List Parameter) : Prop where
  trimmed : Trimmed ps
  spaced : Spaced ps
  grouped : ∀ p ∈ ps, Grouped p

end Parameter

/-- The names that are nowhere empty: of a type, of what `#`, `.` and `:` mark, of attributes, and the values of
attributes without quotes. -/
def Subclass.identifiers : Subclass → List String
  | .id v | .className v => [v]
  | .attribute a => a.name ::
    a.valueMatch.toList.filterMap fun m => if m.value.quoted then none else some m.value.value
  | .pseudoClass p => [p.name]

def CompoundSelector.identifiers (c : CompoundSelector) : List String :=
  c.type.toList ++ c.subclasses.flatMap Subclass.identifiers ++ c.pseudos.map fun p => p.value.name

/-- The parameter is of the kind that the name takes. -/
structure Pseudo.WellFormed (p : Pseudo) : Prop where
  nth : AnPlusB.isPseudoName p.name = true → p.parameter = none ∨ ∃ t x, p.parameter = some (.text t) ∧
    (∀ c ∈ t.toList, CharClass.isWhitespace c = false) ∧ AnPlusB.foldCase t.toList = t.toList ∧
    AnPlusB.read t.toList = .ok x
  nth? : AnPlusB.isPseudoName p.name = true → p.nth?.isSome = p.parameter.isSome
  list : AnPlusB.isPseudoName p.name = false → p.parameter = none ∨ ∃ ps, p.parameter = some (.list ps) ∧
    Parameter.Tidy ps

structure CompoundSelector.WellFormed (c : CompoundSelector) : Prop where
  nonempty : c.type.isSome ∨ c.subclasses ≠ [] ∨ c.pseudos ≠ []
  pseudos : c.pseudos = [] ∨ ∃ p, c.pseudos = [.pseudoElement p]
  identifiers : "" ∉ c.identifiers
  parameters : ∀ p ∈ c.allPseudos, p.WellFormed

namespace Spelling

open Parameter

variable {p q : Parameter} {ps : List Parameter} {w : List Char}

/-- An item is neither empty nor a space. -/
theorem Token.ne (h : Token w) : w ≠ [] ∧ w ≠ [' '] := by
  cases h with
  | @quoted _ v h =>
      constructor
      · rintro rfl
        cases h
      · rintro rfl
        cases h
  | @identifier _ v h =>
      constructor
      · rintro rfl
        cases h
      · rintro rfl
        cases h
  | number h =>
      obtain ⟨d, hd, hw⟩ : ∃ d, d.isDigit = true ∧ d ∈ w := by
        cases h with
        | @integer g ds u v _ hds hne =>
            obtain ⟨d, hd⟩ := List.exists_mem_of_ne_nil ds hne
            exact ⟨d, hds d hd, by simp [hd]⟩
        | @decimal g ds es u v _ _ hes hne =>
            obtain ⟨d, hd⟩ := List.exists_mem_of_ne_nil es hne
            exact ⟨d, hes d hd, by simp [hd]⟩
      constructor
      · rintro rfl
        cases hw
      · rintro rfl
        rw [List.mem_singleton.1 hw] at hd
        cases hd
  | delimiter h =>
      constructor
      · exact List.cons_ne_nil _ _
      · rintro ⟨⟩
        cases h

/-- What may stand beside a space. -/
structure Solid (p : Parameter) : Prop where
  nonempty : p ≠ .text ""
  ne_space : p ≠ space
  grouped : Grouped p

/-- What may stand behind an item. -/
structure Rest (ps : List Parameter) : Prop where
  spaced : Spaced ps
  last : ps.getLast? ≠ some space
  grouped : ∀ p ∈ ps, Grouped p

theorem Rest.nil : Rest [] := ⟨⟨by simp, by simp⟩, by simp, by simp⟩

theorem Rest.cons (hp : Solid p) (h : Rest ps) : Rest (p :: ps) := by
  refine ⟨⟨?_, ?_⟩, ?_, ?_⟩
  · simp [hp.nonempty.symm, h.spaced.nonempty]
  · rw [List.infix_cons_iff]
    rintro (hpre | hin)
    · exact hp.ne_space (List.cons_prefix_cons.1 hpre).1.symm
    · exact h.spaced.apart hin
  · cases ps with
    | nil => simpa using hp.ne_space
    | cons q ps =>
        rw [List.getLast?_cons_cons]
        exact h.last
  · exact List.forall_mem_cons.2 ⟨hp.grouped, h.grouped⟩

theorem Rest.space_cons (hp : Solid p) (h : Rest ps) : Rest (space :: p :: ps) := by
  have h := h.cons hp
  refine ⟨⟨?_, ?_⟩, ?_, ?_⟩
  · rw [List.mem_cons, not_or]
    exact ⟨by simp [space], h.spaced.nonempty⟩
  · rw [List.infix_cons_iff]
    rintro (hpre | hin)
    · exact hp.ne_space (List.cons_prefix_cons.1 (List.cons_prefix_cons.1 hpre).2).1.symm
    · exact h.spaced.apart hin
  · rw [List.getLast?_cons_cons]
    exact h.last
  · exact List.forall_mem_cons.2 ⟨.text, h.grouped⟩

theorem Rest.tidy (hp : Solid p) (h : Rest ps) : Tidy (p :: ps) := by
  have h := h.cons hp
  exact ⟨⟨by simpa using hp.ne_space, h.last⟩, h.spaced, h.grouped⟩

theorem solid_token (h : Token w) : Solid (.text (String.ofList w)) := by
  constructor
  · simpa using h.ne.1
  · intro heq
    have hw : String.ofList w = " " := Parameter.text.inj heq
    exact h.ne.2 (by rw [← String.toList_ofList (l := w), hw]; rfl)
  · exact .text

/-- Brackets are no spaces, so those of a group are none of the spaces that its items are kept from. -/
theorem solid_group {o c : Char} (hoc : (o, c) ∈ [('(', ')'), ('[', ']')]) (h : Tidy ps) :
    Solid (.list (.text (String.ofList [o]) :: (ps ++ [.text (String.ofList [c])]))) := by
  refine ⟨nofun, nofun, ?_⟩
  have hpair : (String.ofList [o], String.ofList [c]) ∈ [("(", ")"), ("[", "]")] := by
    rcases pair_cases hoc with ⟨rfl, rfl⟩ | ⟨rfl, rfl⟩ <;> decide
  have hne : ∀ s ∈ [String.ofList [o], String.ofList [c]], s ≠ "" ∧ s ≠ " " := by
    rcases pair_cases hoc with ⟨rfl, rfl⟩ | ⟨rfl, rfl⟩ <;> decide
  obtain ⟨ho, hc⟩ : (String.ofList [o] ≠ "" ∧ String.ofList [o] ≠ " ") ∧
      String.ofList [c] ≠ "" ∧ String.ofList [c] ≠ " " := by simpa using hne
  refine .group hpair h.trimmed ⟨?_, ?_⟩ h.grouped
  · simp only [List.mem_cons, List.mem_append, Parameter.text.injEq, List.not_mem_nil, or_false, not_or]
    exact ⟨ho.1.symm, h.spaced.nonempty, hc.1.symm⟩
  · rw [List.infix_cons_iff, List.infix_concat_iff]
    rintro (hpre | hsuf | hin)
    · exact ho.2 (Parameter.text.inj (List.cons_prefix_cons.1 hpre).1).symm
    · obtain ⟨x, hx⟩ := hsuf
      have hlast := congrArg List.getLast? hx
      simp only [List.getLast?_append, List.getLast?_cons_cons, List.getLast?_singleton, Option.some_or] at hlast
      exact hc.2 (Parameter.text.inj (Option.some.inj hlast)).symm
    · exact h.spaced.apart hin

mutual

theorem Item.solid : ∀ {p : Parameter} {w : List Char}, Item p w → Solid p
  | _, _, .token h => solid_token h
  | _, _, .group hoc _ hps _ => solid_group hoc hps.tidy

theorem Items.tidy : ∀ {ps : List Parameter} {w : List Char}, Items ps w → Tidy ps
  | _, _, .nil => ⟨⟨by simp, by simp⟩, Rest.nil.spaced, Rest.nil.grouped⟩
  | _, _, .cons hp hps => hps.rest.tidy hp.solid

theorem More.rest : ∀ {ps : List Parameter} {w : List Char}, More ps w → Rest ps
  | _, _, .nil => .nil
  | _, _, .adjacent hp hps => hps.rest.cons hp.solid
  | _, _, .spaced _ _ hp hps => hps.rest.space_cons hp.solid

end

theorem ne_empty {v : String} (h : free.identifier v w) : v ≠ "" := by
  rintro rfl
  exact Identifier.ne_nil_of_decode h rfl

theorem Pseudo.wellFormed {x : Selector.Pseudo} (h : free.Pseudo x w) : x.name ≠ "" ∧ x.WellFormed := by
  cases h with
  | bare hname =>
      refine ⟨ne_empty hname, fun _ => Or.inl rfl, fun hn => ?_, fun _ => Or.inl rfl⟩
      rw [Selector.Pseudo.nth?, if_pos hn]
      rfl
  | @function name v _ u hname harg =>
      refine ⟨ne_empty hname, ?_⟩
      cases harg with
      | @nth b₁ t b₂ y hnth _ ht _ hy =>
          have hread : AnPlusB.read (String.ofList (AnPlusB.normalize t)).toList = .ok y := by
            rw [String.toList_ofList, hy]
          refine ⟨fun _ => Or.inr ⟨_, y, rfl, ?_, ?_, hread⟩, fun _ => ?_, fun hn => ?_⟩
          · rw [String.toList_ofList]
            exact normalize_dense t
          · rw [String.toList_ofList]
            exact foldCase_normalize t
          · rw [Selector.Pseudo.nth?, if_pos hnth]
            simp only [Option.bind_some, asText?, hread]
            rfl
          · rw [hnth] at hn
            cases hn
      | @list b₁ ps w' b₂ hnth _ hps _ =>
          refine ⟨fun hn => ?_, fun hn => ?_, fun _ => Or.inr ⟨ps, rfl, hps.tidy⟩⟩
          · rw [hnth] at hn
            cases hn
          · rw [hnth] at hn
            cases hn

theorem Attribute.identifiers {a : Selector.Attribute} (h : free.Attribute a w) :
    "" ∉ (Selector.Subclass.attribute a).identifiers := by
  obtain ⟨-, hname, hmatch, -⟩ := h
  rw [Selector.Subclass.identifiers, List.mem_cons, not_or]
  refine ⟨(ne_empty hname).symm, ?_⟩
  have hvalue {v : AttributeValue} {u : List Char} (hv : free.Value v u) (hq : v.quoted = false) : "" ≠ v.value := by
    cases hv with
    | quoted => cases hq
    | identifier hv => exact (ne_empty hv).symm
  cases hm : a.valueMatch with
  | none => simp
  | some m =>
      rw [hm] at hmatch
      have hv : ∃ u, free.Value m.value u := by
        cases hmatch with
        | plain _ _ hv | flagged _ _ hv => exact ⟨_, hv⟩
      obtain ⟨u, hv⟩ := hv
      cases hq : m.value.quoted with
      | true => simp [hq]
      | false => simpa [hq] using hvalue hv hq

theorem Subclass.wellFormed {x : Selector.Subclass} (h : free.Subclass x w) :
    "" ∉ x.identifiers ∧ ∀ p ∈ x.pseudo?, p.WellFormed := by
  cases h with
  | id hv | className hv =>
      exact ⟨by simpa [Selector.Subclass.identifiers] using (ne_empty hv).symm, by simp [Subclass.pseudo?]⟩
  | bracketed ha => exact ⟨Attribute.identifiers ha, by simp [Subclass.pseudo?]⟩
  | pseudoClass hp =>
      obtain ⟨hname, hp⟩ := Pseudo.wellFormed hp
      exact ⟨by simpa [Selector.Subclass.identifiers] using hname.symm, by simpa [Subclass.pseudo?] using hp⟩

theorem exists_of_mem {α : Type} {R : α → List Char → Prop} {x : α} {xs : List α} (h : Concat R xs w)
    (hx : x ∈ xs) : ∃ u, R x u := by
  induction h with
  | nil => cases hx
  | cons hr _ ih =>
      rcases List.mem_cons.1 hx with rfl | hx
      · exact ⟨_, hr⟩
      · exact ih hx

theorem Compound.wellFormed {c : CompoundSelector} (h : free.Compound c w)
    (hne : c.type.isSome ∨ c.subclasses ≠ [] ∨ c.pseudos ≠ []) : c.WellFormed := by
  obtain ⟨htype, hsub, helement⟩ := h
  have hsub : ∀ x ∈ c.subclasses, "" ∉ x.identifiers ∧ ∀ p ∈ x.pseudo?, p.WellFormed := by
    intro x hx
    obtain ⟨u, hu⟩ := exists_of_mem hsub hx
    exact Subclass.wellFormed hu
  have htype : "" ∉ c.type.toList := by
    generalize c.type = type at htype
    cases htype with
    | none => simp
    | universal => simp
    | element hv => simpa using (ne_empty hv).symm
  obtain ⟨hshape, hpseudos⟩ : (c.pseudos = [] ∨ ∃ p, c.pseudos = [.pseudoElement p]) ∧
      ∀ x ∈ c.pseudos, x.value.name ≠ "" ∧ x.value.WellFormed := by
    generalize c.pseudos = pseudos at helement
    cases helement with
    | none => exact ⟨Or.inl rfl, by simp⟩
    | element hp => exact ⟨Or.inr ⟨_, rfl⟩, List.forall_mem_singleton.2 (Pseudo.wellFormed hp)⟩
  refine ⟨hne, hshape, ?_, fun p hp => ?_⟩
  · simp only [CompoundSelector.identifiers, List.mem_append, List.mem_flatMap, List.mem_map, not_or, not_exists,
      not_and]
    exact ⟨⟨htype, fun x hx => (hsub x hx).1⟩, fun x hx => (hpseudos x hx).1⟩
  · rw [CompoundSelector.allPseudos, List.mem_append, List.mem_filterMap, List.mem_map] at hp
    rcases hp with ⟨x, hx, hp⟩ | ⟨x, hx, rfl⟩
    · exact (hsub x hx).2 p hp
    · exact (hpseudos x hx).2

end Spelling

namespace OfNodes

variable {n : Node}

/-- Whatever is added to a compound, it is not empty then. -/
theorem Adds.nonempty {c c' : CompoundSelector} (h : Adds c n c') :
    c'.type.isSome ∨ c'.subclasses ≠ [] ∨ c'.pseudos ≠ [] := by
  cases h with
  | type => exact Or.inl rfl
  | id | className | attributeTest | pseudoClass => exact Or.inr (Or.inl (by simp [addSubclass]))
  | pseudoElement => exact Or.inr (Or.inr (by simp))

theorem compound_nonempty {c : CompoundSelector} (hn : n.children ≠ []) (h : compound n = .ok c) :
    c.type.isSome ∨ c.subclasses ≠ [] ∨ c.pseudos ≠ [] := by
  obtain ⟨m, ms, hm⟩ := List.exists_cons_of_ne_nil hn
  rw [compound, hm, List.foldlM_cons] at h
  obtain ⟨c₁, hc₁, h⟩ := bind_eq_ok.1 h
  exact foldlM_keeps (fun _ _ _ _ _ ha => (addSimple_eq_ok ha).2.nonempty) (addSimple_eq_ok hc₁).2.nonempty h

theorem wellFormed_compound {c : CompoundSelector} (hn : n.IsMatch) (hr : n.rule = .compoundSelector)
    (h : compound n = .ok c) : c.WellFormed := by
  have hrun := hn.2
  rw [hr] at hrun
  obtain ⟨w, m, -, hm, -, hread⟩ := Spelling.reads_compound hrun
  cases hm
  exact Spelling.Compound.wellFormed (hread c h) (compound_nonempty (hn.compoundSelector hr) h)

theorem wellFormed_chain {ns : List Node} {t : List (Combinator × CompoundSelector)} (hns : Links ns)
    (h : chain ns = .ok t) : ∀ x ∈ t, x.2.WellFormed := by
  induction hns generalizing t with
  | nil =>
      cases h
      simp
  | cons _ _ hc hcr _ ih =>
      obtain ⟨x, c, u, -, hx, hu, rfl⟩ := chain_cons_eq_ok h
      exact List.forall_mem_cons.2 ⟨wellFormed_compound hc hcr hx, ih hu⟩

theorem wellFormed_complex {x : ComplexSelector} (hn : n.IsMatch) (hr : n.rule = .complexSelector)
    (h : complex n = .ok x) : ∀ c ∈ x.compounds, c.WellFormed := by
  obtain ⟨m, ns, c, t, hch, hc, ht, rfl⟩ := complex_eq_ok h
  obtain ⟨m', ns', hch', hm, hmr, hns⟩ := hn.complexSelector hr
  rw [hch] at hch'
  cases hch'
  refine List.forall_mem_cons.2 ⟨wellFormed_compound hm hmr hc, fun y hy => ?_⟩
  obtain ⟨z, hz, rfl⟩ := List.mem_map.1 hy
  exact wellFormed_chain hns ht z hz

theorem wellFormed_selectorList {list : SelectorList} (hn : n.IsMatch) (hr : n.rule = .selectorList)
    (h : selectorList n = .ok list) : list ≠ [] ∧ ∀ x ∈ list, ∀ c ∈ x.compounds, c.WellFormed := by
  constructor
  · obtain ⟨x, ns, hch, hxr⟩ := hn.selectorList hr
    rw [selectorList, hch, List.filter_cons_of_pos (by simpa using hxr)] at h
    have hlen := (mapM_eq_ok.1 h).length_eq
    rintro rfl
    cases hlen
  · intro x hx
    obtain ⟨m, hm, hmx⟩ := mem_of_mapM h hx
    obtain ⟨hm, hmr⟩ := List.mem_filter.1 hm
    exact wellFormed_complex (hn.child hm).2 (by simpa using hmr) hmx

end OfNodes

end SelectorSyntax.Selector

namespace SelectorSyntax

open Selector

/-- A list that was read has alternatives, and each of their compounds is well-formed. -/
theorem wellFormed_of_parse {input : List Char} {d : Nat} {list : SelectorList}
    (h : parseSelectorList input d = .ok list) :
    list ≠ [] ∧ ∀ x ∈ list, ∀ c ∈ x.compounds, c.WellFormed := by
  obtain ⟨root, hm, hs⟩ := parseSelectorList_eq_ok h
  obtain ⟨-, t, hr⟩ := matchRoot_eq_ok hm
  obtain ⟨n, hn, -, -, -, hroot⟩ := Grammar.Rule.isMatch_of_run rfl hr
  cases hn
  rw [OfNodes.selectors] at hs
  split at hs
  next l hl =>
    obtain ⟨hlm, hlr⟩ := OfNodes.child?_isMatch hroot hl
    exact OfNodes.wellFormed_selectorList hlm hlr hs
  next => cases hs

/-- A class with an escape, a number in upper case, and a pseudo-element. -/
theorem wellFormed_of_parse_nth :
    ∃ list, parseSelectorList ".\\a :nth-col(2N )::b".toList 1 = .ok list ∧
      list ≠ [] ∧ ∀ x ∈ list, ∀ c ∈ x.compounds, c.WellFormed := by
  have h : parseSelectorList ".\\a :nth-col(2N )::b".toList 1 = .ok
      [⟨⟨none, [.className "\n", .pseudoClass ⟨"nth-col", some (.text "2n")⟩], [.pseudoElement ⟨"b", none⟩]⟩, []⟩] := by
    cbv
  exact ⟨_, h, wellFormed_of_parse h⟩

end SelectorSyntax
