import Mathlib.Data.List.Forall2
import SelectorSyntax.Output.Json

namespace SelectorSyntax.Output.Json

open Selector

variable {α : Type} {j v w : Json} {js xs ys : List Json} {fields : List (String × Json)} {key s : String}

/-! Values of the interchange format are compared as values: the fields of an object have no order. -/

/-- Equal as values: arrays item by item, and objects key by key. -/
inductive Same : Json → Json → Prop
  | null : Same null null
  | bool (b : Bool) : Same (bool b) (bool b)
  | str (s : String) : Same (str s) (str s)
  | arr {xs ys : List Json} : List.Forall₂ Same xs ys → Same (arr xs) (arr ys)
  | obj {xs ys : List (String × Json)} : (∀ key, Option.Rel Same (xs.lookup key) (ys.lookup key)) →
      Same (obj xs) (obj ys)

mutual

theorem Same.refl : ∀ j : Json, Same j j
  | .null => .null
  | .bool b => .bool b
  | .str s => .str s
  | .arr xs => .arr (same_items xs)
  | .obj xs => .obj (same_fields xs)

theorem same_items : ∀ xs : List Json, List.Forall₂ Same xs xs
  | [] => .nil
  | x :: xs => .cons (Same.refl x) (same_items xs)

theorem same_fields : ∀ (xs : List (String × Json)) (key : String), Option.Rel Same (xs.lookup key) (xs.lookup key)
  | [], _ => .none
  | (k, x) :: xs, key => by
      rw [List.lookup_cons]
      split
      · exact .some (Same.refl x)
      · exact same_fields xs key

end

/-! Decoding. -/

def text? : Json → Option String
  | str s => some s
  | _ => none

def flag? : Json → Option Bool
  | bool b => some b
  | _ => none

def items? : Json → Option (List Json)
  | arr items => some items
  | _ => none

def field? (key : String) : Json → Option Json
  | obj fields => fields.lookup key
  | _ => none

/-- What is decoded from a field, if the field is there. -/
def optionalField? (key : String) (decode : Json → Option α) (j : Json) : Option (Option α) :=
  match j.field? key with
  | none => some none
  | some v => (decode v).map some

def list? (decode : Json → Option α) (j : Json) : Option (List α) := j.items?.bind (·.mapM decode)

mutual

def parameter? : Json → Option Parameter
  | str t => some (.text t)
  | arr js => (parameters? js).map .list
  | _ => none

def parameters? : List Json → Option (List Parameter)
  | [] => some []
  | j :: js => do
    let p ← parameter? j
    let ps ← parameters? js
    pure (p :: ps)

end

def value? (j : Json) : Option String := do (← j.field? "value").text?

def attributeValue? (j : Json) : Option AttributeValue := do
  let quoted ← (← j.field? "string").flag?
  let value ← (← j.field? "value").text?
  pure ⟨quoted, value⟩

def matcher? (j : Json) : Option AttributeMatcher := do AttributeMatcher.ofSymbol? (← j.text?)

def modifier? (j : Json) : Option AttributeModifier := do AttributeModifier.ofFlag? (← j.text?).toList

def attributeMatch? (j : Json) : Option AttributeMatch := do
  let m ← matcher? (← j.field? "matcher")
  let v ← attributeValue? (← j.field? "value")
  let f ← j.optionalField? "modifier" modifier?
  pure ⟨m, v, f⟩

def attribute? (j : Json) : Option Attribute := do
  let name ← (← j.field? "name").text?
  let m ← j.optionalField? "match" attributeMatch?
  pure ⟨name, m⟩

def pseudo? (j : Json) : Option Pseudo := do
  let name ← (← j.field? "name").text?
  let p ← j.optionalField? "parameter" parameter?
  pure ⟨name, p⟩

/-- The only field of an object tells what it is. -/
def tagged? (key : String) (decode : Json → Option α) (j : Json) : Option α := (j.field? key).bind decode

def subclass? (j : Json) : Option Subclass :=
  (((j.tagged? "Id" value?).map .id).or ((j.tagged? "Class" value?).map .className)).or
    (((j.tagged? "Attribute" attribute?).map .attribute).or ((j.tagged? "PseudoClass" pseudo?).map .pseudoClass))

def trailingPseudo? (j : Json) : Option TrailingPseudo :=
  ((j.tagged? "Class" pseudo?).map .pseudoClass).or ((j.tagged? "Element" pseudo?).map .pseudoElement)

def type? : Json → Option (Option String)
  | null => some none
  | j => (value? j).map some

def compound? (j : Json) : Option CompoundSelector := do
  let t ← type? (← j.field? "type")
  let s ← list? subclass? (← j.field? "subclasses")
  let p ← list? trailingPseudo? (← j.field? "pseudos")
  pure ⟨t, s, p⟩

def combinator? (j : Json) : Option Combinator := do
  let s ← j.text?
  (Combinator.descendant :: Combinator.explicit).find? fun k => combinatorName k = s

def link? (j : Json) : Option (Combinator × CompoundSelector) := do
  match ← j.items? with
  | [k, c] => return (← combinator? k, ← compound? c)
  | _ => none

def complex? (j : Json) : Option ComplexSelector := do
  let h ← compound? (← j.field? "head")
  let t ← list? link? (← j.field? "tail")
  pure ⟨h, t⟩

def selectorList? (j : Json) : Option SelectorList := list? complex? j

/-- Whatever is the same as an encoded value is decoded as that value. -/
def Recovers (decode : Json → Option α) (encode : α → Json) : Prop :=
  ∀ ⦃j : Json⦄ ⦃a : α⦄, Same j (encode a) → decode j = some a

theorem text?_of_same (h : Same j (str s)) : j.text? = some s := by
  cases h
  rfl

theorem flag?_of_same {b : Bool} (h : Same j (bool b)) : j.flag? = some b := by
  cases h
  rfl

theorem items?_of_same (h : Same j (arr ys)) : ∃ xs, j.items? = some xs ∧ List.Forall₂ Same xs ys := by
  cases h with
  | arr h => exact ⟨_, rfl, h⟩

theorem field?_rel (h : Same j (obj fields)) (key : String) : Option.Rel Same (j.field? key) (fields.lookup key) := by
  cases h with
  | obj h => exact h key

theorem field?_of_same (key : String) (h : Same j (obj fields)) (hv : fields.lookup key = some v) :
    ∃ w, j.field? key = some w ∧ Same w v := by
  have hrel := field?_rel h key
  rw [hv] at hrel
  generalize hf : j.field? key = f at hrel
  cases hrel with
  | some hw => exact ⟨_, rfl, hw⟩

theorem field?_none_of_same (h : Same j (obj fields)) (hv : fields.lookup key = none) : j.field? key = none := by
  have hrel := field?_rel h key
  rw [hv] at hrel
  generalize hf : j.field? key = f at hrel
  cases hrel with
  | none => rfl

/-! From the parts of an encoding to the whole. -/

theorem list?_of_same {decode : Json → Option α} {encode : α → Json} (hr : Recovers decode encode) {as : List α}
    (h : Same j (arr (as.map encode))) : list? decode j = some as := by
  obtain ⟨xs, hxs, hall⟩ := items?_of_same h
  rw [list?, hxs, Option.bind_some]
  clear h hxs
  induction as generalizing xs with
  | nil =>
      cases hall
      rfl
  | cons a as ih =>
      obtain ⟨x, xs, hx, hxs, rfl⟩ := List.forall₂_cons_right_iff.1 hall
      rw [List.mapM_cons, hr hx, ih xs hxs]
      rfl

theorem optionalField?_of_same {decode : Json → Option α} {encode : α → Json} (key : String) (a : Option α)
    (hr : Recovers decode encode) (h : Same j (obj fields)) (hv : fields.lookup key = a.map encode) :
    j.optionalField? key decode = some a := by
  rw [optionalField?]
  cases a with
  | none => rw [field?_none_of_same h hv]
  | some a =>
      obtain ⟨w, hw, hs⟩ := field?_of_same _ h hv
      rw [hw]
      simp only [hr hs, Option.map_some]

theorem tagged?_of_same {decode : Json → Option α} {encode : α → Json} (hr : Recovers decode encode) {a : α}
    (h : Same j (obj [(key, encode a)])) : j.tagged? key decode = some a := by
  obtain ⟨w, hw, hs⟩ := field?_of_same _ h List.lookup_cons_self
  rw [tagged?, hw, Option.bind_some, hr hs]

theorem tagged?_none_of_same {decode : Json → Option α} {tag : String} (hne : key ≠ tag) (h : Same j (obj [(tag, v)])) :
    j.tagged? key decode = none := by
  have hlookup : [(tag, v)].lookup key = none := by
    rw [List.lookup_cons, beq_false_of_ne hne]
    rfl
  rw [tagged?, field?_none_of_same h hlookup, Option.bind_none]

/-! The nodes of a selector list, from the leaves up. -/

mutual

theorem parameter?_of_same : ∀ (p : Parameter) {j : Json}, Same j (ofParameter p) → parameter? j = some p
  | .text t, j, h => by
      rw [ofParameter] at h
      cases h
      rfl
  | .list ps, j, h => by
      rw [ofParameter] at h
      cases h with
      | arr h => rw [parameter?, parameters?_of_same ps h, Option.map_some]

theorem parameters?_of_same : ∀ (ps : List Parameter) {js : List Json}, List.Forall₂ Same js (ofParameters ps) →
    parameters? js = some ps
  | [], js, h => by
      rw [ofParameters] at h
      cases h
      rfl
  | p :: ps, js, h => by
      rw [ofParameters] at h
      obtain ⟨x, xs, hx, hxs, rfl⟩ := List.forall₂_cons_right_iff.1 h
      rw [parameters?, parameter?_of_same p hx, parameters?_of_same ps hxs]
      rfl

end

theorem recovers_parameter : Recovers parameter? ofParameter := fun _ p h => parameter?_of_same p h

theorem recovers_value : Recovers value? ofValue := by
  intro j s h
  obtain ⟨w, hw, hs⟩ := field?_of_same _ h List.lookup_cons_self
  simp only [value?, hw, text?_of_same hs, Option.bind_eq_bind, Option.bind_some]

theorem recovers_attributeValue : Recovers attributeValue? ofAttributeValue := by
  intro j v h
  obtain ⟨q, hq, hqs⟩ := field?_of_same "string" h rfl
  obtain ⟨w, hw, hws⟩ := field?_of_same "value" h rfl
  simp only [attributeValue?, hq, hw, flag?_of_same hqs, text?_of_same hws, Option.bind_eq_bind, Option.bind_some]
  rfl

theorem recovers_matcher : Recovers matcher? fun m => str m.symbol := by
  intro j m h
  rw [matcher?, text?_of_same h]
  cases m <;> rfl

theorem recovers_modifier : Recovers modifier? fun f => str f.flag := by
  intro j f h
  rw [modifier?, text?_of_same h]
  cases f <;> rfl

theorem recovers_attributeMatch : Recovers attributeMatch? ofAttributeMatch := by
  rintro j ⟨m, v, f⟩ h
  obtain ⟨x, hx, hxs⟩ := field?_of_same "matcher" h rfl
  obtain ⟨y, hy, hys⟩ := field?_of_same "value" h rfl
  have hf := optionalField?_of_same "modifier" f recovers_modifier h (by cases f <;> rfl)
  simp only [attributeMatch?, hx, hy, hf, recovers_matcher hxs, recovers_attributeValue hys, Option.bind_eq_bind,
    Option.bind_some]
  rfl

theorem recovers_attribute : Recovers attribute? ofAttribute := by
  rintro j ⟨name, m⟩ h
  obtain ⟨x, hx, hxs⟩ := field?_of_same "name" h rfl
  have hm := optionalField?_of_same "match" m recovers_attributeMatch h (by cases m <;> rfl)
  simp only [attribute?, hx, hm, text?_of_same hxs, Option.bind_eq_bind, Option.bind_some]
  rfl

theorem recovers_pseudo : Recovers pseudo? ofPseudo := by
  rintro j ⟨name, p⟩ h
  obtain ⟨x, hx, hxs⟩ := field?_of_same "name" h rfl
  have hp := optionalField?_of_same "parameter" p recovers_parameter h (by cases p <;> rfl)
  simp only [pseudo?, hx, hp, text?_of_same hxs, Option.bind_eq_bind, Option.bind_some]
  rfl

theorem recovers_subclass : Recovers subclass? ofSubclass := by
  rintro j (v | v | a | p) h
  · rw [subclass?, tagged?_of_same recovers_value h]
    rfl
  · rw [subclass?, tagged?_none_of_same (by decide) h, tagged?_of_same recovers_value h]
    rfl
  · rw [subclass?, tagged?_none_of_same (by decide) h, tagged?_none_of_same (by decide) h,
      tagged?_of_same recovers_attribute h]
    rfl
  · rw [subclass?, tagged?_none_of_same (by decide) h, tagged?_none_of_same (by decide) h,
      tagged?_none_of_same (by decide) h, tagged?_of_same recovers_pseudo h]
    rfl

theorem recovers_trailingPseudo : Recovers trailingPseudo? ofTrailingPseudo := by
  rintro j (p | p) h
  · rw [trailingPseudo?, tagged?_of_same recovers_pseudo h]
    rfl
  · rw [trailingPseudo?, tagged?_none_of_same (by decide) h, tagged?_of_same recovers_pseudo h]
    rfl

/-- No name is taken for the absence of one, because a name is encoded as an object. -/
theorem recovers_type : Recovers type? ofType := by
  intro j t h
  cases t with
  | none =>
      cases h
      rfl
  | some t =>
      have hv := recovers_value h
      rw [ofType, ofValue] at h
      cases h
      rw [type?, hv, Option.map_some]
      exact nofun

theorem recovers_compound : Recovers compound? ofCompound := by
  rintro j ⟨t, ss, ps⟩ h
  obtain ⟨x, hx, hxs⟩ := field?_of_same "type" h rfl
  obtain ⟨y, hy, hys⟩ := field?_of_same "subclasses" h rfl
  obtain ⟨z, hz, hzs⟩ := field?_of_same "pseudos" h rfl
  simp only [compound?, hx, hy, hz, recovers_type hxs, list?_of_same recovers_subclass hys,
    list?_of_same recovers_trailingPseudo hzs, Option.bind_eq_bind, Option.bind_some]
  rfl

theorem recovers_combinator : Recovers combinator? fun k => str (combinatorName k) := by
  intro j k h
  rw [combinator?, text?_of_same h]
  cases k <;> rfl

theorem recovers_link : Recovers link? ofLink := by
  rintro j ⟨k, c⟩ h
  obtain ⟨xs, hxs, hall⟩ := items?_of_same h
  obtain ⟨x, _, hx, hrest, rfl⟩ := List.forall₂_cons_right_iff.1 hall
  obtain ⟨y, _, hy, hnil, rfl⟩ := List.forall₂_cons_right_iff.1 hrest
  cases hnil
  simp only [link?, hxs, recovers_combinator hx, recovers_compound hy, Option.bind_eq_bind, Option.bind_some]
  rfl

theorem recovers_complex : Recovers complex? ofComplex := by
  rintro j ⟨c, t⟩ h
  obtain ⟨x, hx, hxs⟩ := field?_of_same "head" h rfl
  obtain ⟨y, hy, hys⟩ := field?_of_same "tail" h rfl
  simp only [complex?, hx, hy, recovers_compound hxs, list?_of_same recovers_link hys, Option.bind_eq_bind,
    Option.bind_some]
  rfl

theorem recovers_selectorList : Recovers selectorList? ofSelectorList := fun _ _ h => list?_of_same recovers_complex h

/-- Encodings lose nothing: they are decoded as what was encoded, with the fields of objects in any order, and are the
same only for the same list. -/
theorem ofSelectorList_lossless (l l' : SelectorList) :
    Recovers selectorList? ofSelectorList ∧ (Same (ofSelectorList l) (ofSelectorList l') ↔ l = l') := by
  refine ⟨recovers_selectorList, fun h => ?_, ?_⟩
  · have hl := recovers_selectorList (Same.refl (ofSelectorList l))
    exact Option.some.inj (hl.symm.trans (recovers_selectorList h))
  · rintro rfl
    exact Same.refl _

end SelectorSyntax.Output.Json
