import SelectorSyntax.Proofs.Spelling.Basic
import SelectorSyntax.Text.Identifier
import SelectorSyntax.Text.Quoted

namespace SelectorSyntax.Selector.Spelling

open Text

/-! Tokens in any of their forms. -/

inductive Sign : List Char → Prop
  | none : Sign []
  | plus : Sign ['+']
  | minus : Sign ['-']

def Digits (w : List Char) : Prop := ∀ c ∈ w, c.isDigit = true

/-- A number may have a fraction, and a unit of any characters that a name may have. -/
inductive Number : List Char → Prop
  | integer {g ds u v} : Sign g → Digits ds → ds ≠ [] → Identifier.readTail u = .ok (v, []) →
      Number (g ++ (ds ++ u))
  | decimal {g ds es u v} : Sign g → Digits ds → Digits es → es ≠ [] → Identifier.readTail u = .ok (v, []) →
      Number (g ++ (ds ++ '.' :: (es ++ u)))

def isDelimiter (c : Char) : Bool :=
  !(c ∈ ['(', ')', '[', ']', '"', '\'', '\\'] || CharClass.isWhitespace c)

inductive Token : List Char → Prop
  | quoted {w v} : Quoted.read w = some (v, []) → Token w
  | identifier {w v} : Identifier.decode w = .ok v → Token w
  | number {w} : Number w → Token w
  | delimiter {c} : isDelimiter c = true → Token [c]

mutual

/-- An item of an argument: a token as it is written, or a group with its brackets. -/
inductive Item : Parameter → List Char → Prop
  | token {w} : Token w → Item (.text (String.ofList w)) w
  | group {o c ps b₁ w b₂} : (o, c) ∈ [('(', ')'), ('[', ']')] → Blanks b₁ → Items ps w → Blanks b₂ →
      Item (.list (.text (String.ofList [o]) :: (ps ++ [.text (String.ofList [c])])))
        (o :: (b₁ ++ (w ++ (b₂ ++ [c]))))

/-- What stands between brackets. -/
inductive Items : List Parameter → List Char → Prop
  | nil : Items [] []
  | cons {p ps w u} : Item p w → More ps u → Items (p :: ps) (w ++ u)

/-- What follows the first item: items, with a space for blanks between them. -/
inductive More : List Parameter → List Char → Prop
  | nil : More [] []
  | adjacent {p ps w u} : Item p w → More ps u → More (p :: ps) (w ++ u)
  | spaced {p ps b w u} : Blanks b → b ≠ [] → Item p w → More ps u → More (.text " " :: p :: ps) (b ++ (w ++ u))

end

theorem pair_cases {o c : Char} (h : (o, c) ∈ [('(', ')'), ('[', ']')]) : o = '(' ∧ c = ')' ∨ o = '[' ∧ c = ']' := by
  simpa using h

/-- What selects siblings by number: a keyword, an integer, or a multiple of `n` and an integer. -/
inductive Nth : List Char → Prop
  | keyword {t} : AnPlusB.foldCase t ∈ ["odd".toList, "even".toList] → Nth t
  | integer {g ds} : Sign g → Digits ds → ds ≠ [] → Nth (g ++ ds)
  | step {g ds n} : Sign g → Digits ds → n.toLower = 'n' → Nth (g ++ (ds ++ [n]))
  | shifted {g ds n w h u es} : Sign g → Digits ds → n.toLower = 'n' →
      (∀ c ∈ w, CharClass.isWhitespace c = true) → Sign [h] → (∀ c ∈ u, CharClass.isWhitespace c = true) →
      Digits es → es ≠ [] → Nth (g ++ (ds ++ n :: (w ++ h :: (u ++ es))))

/-- The argument of an `nth` name is kept without whitespace and in lower case, and its numbers are in
range; that of any other name is kept item by item. -/
inductive Argument : String → Parameter → List Char → Prop
  | nth {name b₁ t b₂ x} : AnPlusB.isPseudoName name = true → Blanks b₁ → Nth t → Blanks b₂ →
      AnPlusB.read (AnPlusB.normalize t) = .ok x →
      Argument name (.text (String.ofList (AnPlusB.normalize t))) ('(' :: (b₁ ++ (t ++ (b₂ ++ [')']))))
  | list {name b₁ ps w b₂} : AnPlusB.isPseudoName name = false → Blanks b₁ → Items ps w → Blanks b₂ →
      Argument name (.list ps) ('(' :: (b₁ ++ (w ++ (b₂ ++ [')']))))

/-- Every way in which a selector can be written. -/
def free : Spelling where
  identifier v w := Identifier.decode w = .ok v.toList
  quoted v w := Quoted.read w = some (v.toList, [])
  gap _ := True
  argument := Argument

end SelectorSyntax.Selector.Spelling
