import SelectorSyntax.Selector.Basic
namespace SelectorSyntax.Output

open Selector

/-- Values of the interchange format. Numbers do not occur in selectors. -/
inductive Json
  | null
  | bool (value : Bool)
  | str (value : String)
  | arr (items : List Json)
  | obj (fields : List (String × Json))

namespace Json

mutual

/-- A text stands for itself and a list for the array of its items. -/
def ofParameter : Parameter → Json
  | .text t => str t
  | .list ps => arr (ofParameters ps)

def ofParameters : List Parameter → List Json
  | [] => []
  | p :: ps => ofParameter p :: ofParameters ps

end

/-- A field that is left out when there is nothing to say. -/
def optionalField {α : Type} (key : String) (encode : α → Json) : Option α → List (String × Json)
  | none => []
  | some a => [(key, encode a)]

def ofValue (value : String) : Json := obj [("value", str value)]

def ofAttributeValue (v : AttributeValue) : Json := obj [("string", bool v.quoted), ("value", str v.value)]

def ofAttributeMatch (m : AttributeMatch) : Json :=
  obj ([("matcher", str m.matcher.symbol), ("value", ofAttributeValue m.value)] ++
    optionalField "modifier" (fun f => str f.flag) m.modifier)

def ofAttribute (a : Attribute) : Json :=
  obj (("name", str a.name) :: optionalField "match" ofAttributeMatch a.valueMatch)

def ofPseudo (p : Pseudo) : Json :=
  obj (("name", str p.name) :: optionalField "parameter" ofParameter p.parameter)

def ofSubclass : Subclass → Json
  | .id v => obj [("Id", ofValue v)]
  | .className v => obj [("Class", ofValue v)]
  | .attribute a => obj [("Attribute", ofAttribute a)]
  | .pseudoClass p => obj [("PseudoClass", ofPseudo p)]

def ofTrailingPseudo : TrailingPseudo → Json
  | .pseudoClass p => obj [("Class", ofPseudo p)]
  | .pseudoElement p => obj [("Element", ofPseudo p)]

def ofType : Option String → Json
  | none => null
  | some t => ofValue t

def ofCompound (c : CompoundSelector) : Json :=
  obj [("type", ofType c.type), ("subclasses", arr (c.subclasses.map ofSubclass)),
    ("pseudos", arr (c.pseudos.map ofTrailingPseudo))]

def combinatorName : Combinator → String
  | .descendant => "Descendant"
  | .child => "Child"
  | .nextSibling => "NextSibling"
  | .subsequentSibling => "SubsequentSibling"
  | .column => "Column"

def ofLink (l : Combinator × CompoundSelector) : Json := arr [str (combinatorName l.1), ofCompound l.2]

def ofComplex (c : ComplexSelector) : Json := obj [("head", ofCompound c.head), ("tail", arr (c.tail.map ofLink))]

def ofSelectorList (l : SelectorList) : Json := arr (l.map ofComplex)

end Json

end SelectorSyntax.Output
