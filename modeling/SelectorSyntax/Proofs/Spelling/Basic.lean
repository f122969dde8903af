import SelectorSyntax.Selector.Basic

namespace SelectorSyntax.Selector

open Text

/-- Whitespace and closed comments, none or more, in any order. -/
inductive Blanks : List Char → Prop
  | nil : Blanks []
  | whitespace {c w} : CharClass.isWhitespace c = true → Blanks w → Blanks (c :: w)
  | comment {b w} : ¬ ['*', '/'] <:+: b → Blanks w → Blanks ('/' :: '*' :: (b ++ '*' :: '/' :: w))

/-- The parts of a text one after another, each of which spells one item. -/
inductive Concat {α : Type} (R : α → List Char → Prop) : List α → List Char → Prop
  | nil : Concat R [] []
  | cons {x xs w u} : R x w → Concat R xs u → Concat R (x :: xs) (w ++ u)

/-- How the pieces of a selector are written that can be written in more than one way: names, quoted
values, what stands between a value and its modifier, and the argument of a pseudo-class or
pseudo-element of a given name, parentheses included. -/
structure Spelling where
  identifier : String → List Char → Prop
  quoted : String → List Char → Prop
  gap : List Char → Prop
  argument : String → Parameter → List Char → Prop

namespace Spelling

inductive Value (σ : Spelling) : AttributeValue → List Char → Prop
  | quoted {v w} : σ.quoted v w → Value σ ⟨true, v⟩ w
  | identifier {v w} : σ.identifier v w → Value σ ⟨false, v⟩ w

/-- A modifier is one letter, in either case. -/
def Flag (f : AttributeModifier) (w : List Char) : Prop := w.map Char.toLower = f.flag.toList

/-- What stands behind the name of an attribute. -/
inductive Match (σ : Spelling) : Option AttributeMatch → List Char → Prop
  | none : Match σ none []
  | plain {m v b₁ b₂ w} : Blanks b₁ → Blanks b₂ → σ.Value v w →
      Match σ (some ⟨m, v, .none⟩) (b₁ ++ (m.symbol.toList ++ (b₂ ++ w)))
  | flagged {m v f b₁ b₂ b₃ w u} : Blanks b₁ → Blanks b₂ → σ.Value v w → Blanks b₃ → σ.gap b₃ → Flag f u →
      Match σ (some ⟨m, v, some f⟩) (b₁ ++ (m.symbol.toList ++ (b₂ ++ (w ++ (b₃ ++ u)))))

inductive Attribute (σ : Spelling) : Selector.Attribute → List Char → Prop
  | mk {a b₁ b₂ w u} : Blanks b₁ → σ.identifier a.name w → σ.Match a.valueMatch u → Blanks b₂ →
      Attribute σ a ('[' :: (b₁ ++ (w ++ (u ++ (b₂ ++ [']'])))))

inductive Pseudo (σ : Spelling) : Selector.Pseudo → List Char → Prop
  | bare {name w} : σ.identifier name w → Pseudo σ ⟨name, none⟩ w
  | function {name v w u} : σ.identifier name w → σ.argument name v u → Pseudo σ ⟨name, some v⟩ (w ++ u)

inductive Subclass (σ : Spelling) : Selector.Subclass → List Char → Prop
  | id {v w} : σ.identifier v w → Subclass σ (.id v) ('#' :: w)
  | className {v w} : σ.identifier v w → Subclass σ (.className v) ('.' :: w)
  | bracketed {a w} : σ.Attribute a w → Subclass σ (.attribute a) w
  | pseudoClass {p w} : σ.Pseudo p w → Subclass σ (.pseudoClass p) (':' :: w)

inductive TypeName (σ : Spelling) : Option String → List Char → Prop
  | none : TypeName σ none []
  | universal : TypeName σ (some "*") ['*']
  | element {v w} : σ.identifier v w → TypeName σ (some v) w

/-- A compound ends with at most one pseudo-element. -/
inductive Element (σ : Spelling) : List TrailingPseudo → List Char → Prop
  | none : Element σ [] []
  | element {p w} : σ.Pseudo p w → Element σ [.pseudoElement p] (':' :: ':' :: w)

inductive Compound (σ : Spelling) : CompoundSelector → List Char → Prop
  | mk {c t s e} : σ.TypeName c.type t → Concat σ.Subclass c.subclasses s → σ.Element c.pseudos e →
      Compound σ c (t ++ (s ++ e))

/-- The descendant combinator is whitespace; the others are signs with blanks around them. -/
inductive Joins : Combinator → List Char → Prop
  | descendant {b} : Blanks b → b ≠ [] → Joins .descendant b
  | sign {k b₁ b₂} : k ∈ Combinator.explicit → Blanks b₁ → Blanks b₂ → Joins k (b₁ ++ (k.symbol.toList ++ b₂))

inductive Link (σ : Spelling) : Combinator × CompoundSelector → List Char → Prop
  | mk {k c w u} : Joins k w → σ.Compound c u → Link σ (k, c) (w ++ u)

inductive Complex (σ : Spelling) : ComplexSelector → List Char → Prop
  | mk {x w u} : σ.Compound x.head w → Concat σ.Link x.tail u → Complex σ x (w ++ u)

/-- Alternatives with commas between them. -/
inductive Alternatives (σ : Spelling) : SelectorList → List Char → Prop
  | last {x w} : σ.Complex x w → Alternatives σ [x] w
  | next {x xs w b₁ b₂ u} : σ.Complex x w → Blanks b₁ → Blanks b₂ → σ.Alternatives xs u →
      Alternatives σ (x :: xs) (w ++ (b₁ ++ (',' :: (b₂ ++ u))))

/-- A whole text that spells a list. -/
def Spells (σ : Spelling) (list : SelectorList) (text : List Char) : Prop :=
  ∃ b₁ w b₂, Blanks b₁ ∧ σ.Alternatives list w ∧ Blanks b₂ ∧ text = b₁ ++ (w ++ b₂)

end Spelling

end SelectorSyntax.Selector
