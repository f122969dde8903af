import SelectorSyntax.AnPlusB
import SelectorSyntax.Selector.Parameter
namespace SelectorSyntax.Selector

inductive SelectorKind
  | complex
  | compound
  | type
  | id
  | className
  | attribute
  | pseudoClass
  | pseudoElement
deriving DecidableEq, Repr

inductive Combinator
  | descendant
  | child
  | nextSibling
  | subsequentSibling
  | column
deriving DecidableEq, Repr

/-- The descendant combinator has no sign of its own; a space stands for it. -/
def Combinator.symbol : Combinator → String
  | .descendant => " "
  | .child => ">"
  | .nextSibling => "+"
  | .subsequentSibling => "~"
  | .column => "||"

def Combinator.explicit : List Combinator := [.child, .nextSibling, .subsequentSibling, .column]

def Combinator.ofSymbol? (s : String) : Option Combinator := explicit.find? fun c => c.symbol = s

inductive AttributeMatcher
  | equals
  | includes
  | dashMatch
  | startsWith
  | endsWith
  | substring
deriving DecidableEq, Repr

def AttributeMatcher.symbol : AttributeMatcher → String
  | .equals => "="
  | .includes => "~="
  | .dashMatch => "|="
  | .startsWith => "^="
  | .endsWith => "$="
  | .substring => "*="

def AttributeMatcher.all : List AttributeMatcher :=
  [.equals, .includes, .dashMatch, .startsWith, .endsWith, .substring]

def AttributeMatcher.ofSymbol? (s : String) : Option AttributeMatcher := all.find? fun m => m.symbol = s

inductive AttributeModifier
  | caseInsensitive
  | caseSensitive
deriving DecidableEq, Repr

def AttributeModifier.flag : AttributeModifier → String
  | .caseInsensitive => "i"
  | .caseSensitive => "s"

def AttributeModifier.ofFlag? (s : List Char) : Option AttributeModifier :=
  [AttributeModifier.caseInsensitive, .caseSensitive].find? fun m => m.flag.toList = s.map Char.toLower

/-- A value with its escapes resolved, and whether it stood between quotes. -/
structure AttributeValue where
  quoted : Bool
  value : String
deriving DecidableEq, Repr

structure AttributeMatch where
  matcher : AttributeMatcher
  value : AttributeValue
  modifier : Option AttributeModifier
deriving DecidableEq, Repr

structure Attribute where
  name : String
  valueMatch : Option AttributeMatch
deriving DecidableEq, Repr

/-- Without a value to compare with, only the presence of the attribute counts. -/
def Attribute.isPresenceTest (a : Attribute) : Bool := a.valueMatch.isNone

/-- A pseudo-class or a pseudo-element. -/
structure Pseudo where
  name : String
  parameter : Option Parameter

/-- The siblings that an `nth` pseudo-class selects. -/
def Pseudo.nth? (p : Pseudo) : Option AnPlusB :=
  if AnPlusB.isPseudoName p.name then
    (p.parameter.bind Parameter.asText?).bind fun t => (AnPlusB.read t.toList).toOption
  else none

inductive Subclass
  | id (value : String)
  | className (value : String)
  | attribute (value : Attribute)
  | pseudoClass (value : Pseudo)

def Subclass.kind : Subclass → SelectorKind
  | .id _ => .id
  | .className _ => .className
  | .attribute _ => .attribute
  | .pseudoClass _ => .pseudoClass

/-- What may follow the subclasses of a compound selector. Parsing puts pseudo-classes among the
subclasses, so it makes elements only. -/
inductive TrailingPseudo
  | pseudoClass (value : Pseudo)
  | pseudoElement (value : Pseudo)

namespace TrailingPseudo

def kind : TrailingPseudo → SelectorKind
  | .pseudoClass _ => .pseudoClass
  | .pseudoElement _ => .pseudoElement

def value : TrailingPseudo → Pseudo
  | .pseudoClass p | .pseudoElement p => p

def element? : TrailingPseudo → Option Pseudo
  | .pseudoClass _ => none
  | .pseudoElement p => some p

end TrailingPseudo

/-- Simple selectors that all hold for one element. -/
structure CompoundSelector where
  type : Option String
  subclasses : List Subclass
  pseudos : List TrailingPseudo

namespace CompoundSelector

def empty : CompoundSelector := ⟨none, [], []⟩

def isImplicitlyUniversal (c : CompoundSelector) : Bool := c.type.isNone

def pseudoElement? (c : CompoundSelector) : Option Pseudo := c.pseudos.findSome? TrailingPseudo.element?

end CompoundSelector

def isUniversal (type : String) : Bool := type = "*"

/-- A chain of compound selectors from left to right. -/
structure ComplexSelector where
  head : CompoundSelector
  tail : List (Combinator × CompoundSelector)

namespace ComplexSelector

def compounds (c : ComplexSelector) : List CompoundSelector := c.head :: c.tail.map Prod.snd

def combinators (c : ComplexSelector) : List Combinator := c.tail.map Prod.fst

/-- The place of the subject among the compounds. -/
def subjectIndex (c : ComplexSelector) : Nat := c.tail.length

/-- The compound that stands for the selected element, which is the last one. -/
def subject (c : ComplexSelector) : CompoundSelector := (c.tail.getLast?.map Prod.snd).getD c.head

theorem getElem?_subjectIndex (c : ComplexSelector) : c.compounds[c.subjectIndex]? = some c.subject := by
  obtain ⟨h, t⟩ := c
  rcases List.eq_nil_or_concat t with rfl | ⟨t, x, rfl⟩
  · rfl
  · simp [compounds, subjectIndex, subject]

end ComplexSelector

/-- Alternatives in the order of the text, repetitions included. -/
abbrev SelectorList := List ComplexSelector

end SelectorSyntax.Selector
