import SelectorSyntax.Proofs.Assembly.Depth
import SelectorSyntax.Proofs.Spelling.Basic

namespace SelectorSyntax.Selector

open Grammar Text

namespace Spelling

/-- A character by its code. The space ends the digits. -/
def escape (c : Char) : List Char := '\\' :: (Nat.toDigits 16 c.toNat ++ [' '])

def escaped (v : String) : List Char := v.toList.flatMap escape

/-- All names and quoted values by the codes of their characters; an argument that selects by number as it
is kept, and any other as some text without comments that is read as it. -/
def encoded : Spelling where
  identifier v w := w = escaped v
  quoted v w := ∃ q, CharClass.isQuote q = true ∧ w = q :: (escaped v ++ [q])
  gap b := b ≠ []
  argument name v w := ∃ t, w = '(' :: (t ++ [')']) ∧
    if AnPlusB.isPseudoName name then v = .text (String.ofList t)
    else ¬ ['/', '*'] <:+: t ∧ ∃ d, parseTextFragment t d = .ok v

end Spelling

/-! What can be written. -/

/-- Values without the character zero, which no escape stands for. -/
def Writable (v : String) : Prop := '\x00' ∉ v.toList

/-- Names are not empty. -/
def WritableName (v : String) : Prop := v ≠ "" ∧ Writable v

/-- A text that is already spelled uniformly and selects siblings by numbers in range. -/
structure Nth (t : List Char) : Prop where
  lower : AnPlusB.foldCase t = t
  dense : ∀ c ∈ t, CharClass.isWhitespace c = false
  matched : ∃ ns, Rule.nthValue.run t = some ([], ns)
  inRange : AnPlusB.read t ≠ .error .outOfRange

/-- The parameters that a name may have. -/
def WritableParameter (name : String) (v : Parameter) : Prop :=
  if AnPlusB.isPseudoName name then ∃ t, v = .text t ∧ Nth t.toList
  else ∃ ps t d, v = .list ps ∧ ¬ ['/', '*'] <:+: t ∧ parseTextFragment t d = .ok v

structure Pseudo.Writable (p : Pseudo) : Prop where
  name : WritableName p.name
  parameter : ∀ v ∈ p.parameter, WritableParameter p.name v

def AttributeValue.Writable (v : AttributeValue) : Prop :=
  if v.quoted then Selector.Writable v.value else WritableName v.value

structure Attribute.Writable (a : Attribute) : Prop where
  name : WritableName a.name
  value : ∀ m ∈ a.valueMatch, m.value.Writable

def Subclass.Writable : Subclass → Prop
  | .id v | .className v => WritableName v
  | .attribute a => a.Writable
  | .pseudoClass p => p.Writable

/-- A compound has at least one simple selector and at most one pseudo-element, which is its last. -/
structure CompoundSelector.Writable (c : CompoundSelector) : Prop where
  nonempty : c.type ≠ none ∨ c.subclasses ≠ [] ∨ c.pseudos ≠ []
  type : ∀ t ∈ c.type, WritableName t
  subclasses : ∀ s ∈ c.subclasses, s.Writable
  pseudos : c.pseudos = [] ∨ ∃ p, c.pseudos = [.pseudoElement p] ∧ p.Writable

def WritableList (list : SelectorList) : Prop :=
  list ≠ [] ∧ ∀ x ∈ list, ∀ c ∈ x.compounds, c.Writable

/-! How deep the brackets lie. -/

/-- No more than `d` brackets of the compound lie inside one another. -/
structure CompoundSelector.BracketsWithin (d : Nat) (c : CompoundSelector) : Prop where
  attributes : ∀ a, Subclass.attribute a ∈ c.subclasses → 1 ≤ d
  parameters : ∀ p ∈ c.allPseudos, ∀ v ∈ p.parameter, max 1 v.depth ≤ d

def BracketsWithin (d : Nat) (list : SelectorList) : Prop :=
  ∀ x ∈ list, ∀ c ∈ x.compounds, c.BracketsWithin d

end SelectorSyntax.Selector
