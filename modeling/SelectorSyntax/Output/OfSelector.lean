import SelectorSyntax.Output.Json
import SelectorSyntax.Output.Outline
import SelectorSyntax.Parse
namespace SelectorSyntax.Output.Outline

open Selector

mutual

def ofParameter : Parameter → Outline
  | .text t => tagged "Text" [quoted t]
  | .list ps => tagged "List" [list (ofParameters ps)]

def ofParameters : List Parameter → List Outline
  | [] => []
  | p :: ps => ofParameter p :: ofParameters ps

end

/-- A record of one value. -/
def ofValue (name value : String) : Outline := record name [("value", quoted value)]

def ofMatcher : AttributeMatcher → Outline
  | .equals => atom "Equals"
  | .includes => atom "Includes"
  | .dashMatch => atom "DashMatch"
  | .startsWith => atom "Prefix"
  | .endsWith => atom "Suffix"
  | .substring => atom "Substring"

def ofModifier : AttributeModifier → Outline
  | .caseInsensitive => atom "CaseInsensitive"
  | .caseSensitive => atom "CaseSensitive"

def ofAttributeValue (v : AttributeValue) : Outline :=
  record "AttributeValue" [("quoted", atom (if v.quoted then "true" else "false")), ("value", quoted v.value)]

def ofAttributeMatch (m : AttributeMatch) : Outline :=
  record "AttributeMatch"
    [("matcher", ofMatcher m.matcher), ("value", ofAttributeValue m.value), ("modifier", ofOption ofModifier m.modifier)]

def ofAttribute (a : Attribute) : Outline :=
  record "AttributeSelector" [("name", quoted a.name), ("value_match", ofOption ofAttributeMatch a.valueMatch)]

def ofPseudo (name : String) (p : Pseudo) : Outline :=
  record name [("name", quoted p.name), ("parameter", ofOption ofParameter p.parameter)]

def ofPseudoClass : Pseudo → Outline := ofPseudo "PseudoClassSelector"

def ofPseudoElement : Pseudo → Outline := ofPseudo "PseudoElementSelector"

def ofSubclass : Subclass → Outline
  | .id v => tagged "Id" [ofValue "IdSelector" v]
  | .className v => tagged "Class" [ofValue "ClassSelector" v]
  | .attribute a => tagged "Attribute" [ofAttribute a]
  | .pseudoClass p => tagged "PseudoClass" [ofPseudoClass p]

def ofTrailingPseudo : TrailingPseudo → Outline
  | .pseudoClass p => tagged "Class" [ofPseudoClass p]
  | .pseudoElement p => tagged "Element" [ofPseudoElement p]

def ofCompound (c : CompoundSelector) : Outline :=
  record "CompoundSelector"
    [("type_selector", ofOption (ofValue "TypeSelector") c.type), ("subclasses", list (c.subclasses.map ofSubclass)),
      ("pseudos", list (c.pseudos.map ofTrailingPseudo))]

def ofLink (l : Combinator × CompoundSelector) : Outline :=
  tagged "" [atom (Json.combinatorName l.1), ofCompound l.2]

def ofComplex (c : ComplexSelector) : Outline :=
  record "ComplexSelector" [("head", ofCompound c.head), ("tail", list (c.tail.map ofLink))]

def ofSelectorList (l : SelectorList) : Outline := tagged "SelectorList" [list (l.map ofComplex)]

def ofStartRule : StartRule → Outline
  | .selectors => atom "Selectors"
  | .text => atom "Text"

def ofOptions (o : ParseOptions) : Outline :=
  abridged "ParseOptions" [("start_rule", ofStartRule o.startRule), ("max_depth", atom (toString o.maxDepth))]

def ofParsed : Parsed → Outline
  | .selectors l => tagged "Selectors" [ofSelectorList l]
  | .text p => tagged "Text" [ofParameter p]

/-- What was parsed, without the start rule's name around it. -/
def ofContent : Parsed → Outline
  | .selectors l => ofSelectorList l
  | .text p => ofParameter p

end SelectorSyntax.Output.Outline
