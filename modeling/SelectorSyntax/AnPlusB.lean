import SelectorSyntax.Text.CharClass
namespace SelectorSyntax

/-- Every `step`-th sibling, counted from `shift`. -/
structure AnPlusB where
  step : Int
  shift : Int
deriving DecidableEq, Repr

namespace AnPlusB

open Text.CharClass

inductive Fault
  | invalid
  | outOfRange
deriving DecidableEq, Repr

def odd : AnPlusB := ⟨2, 1⟩

def even : AnPlusB := ⟨2, 0⟩

/-- The pseudo-classes whose argument selects siblings by number. -/
def pseudoNames : List String :=
  ["nth-child", "nth-last-child", "nth-of-type", "nth-last-of-type", "nth-col", "nth-last-col"]

def foldCase (s : List Char) : List Char := s.map Char.toLower

def isPseudoName (name : String) : Bool := pseudoNames.any fun n => foldCase n.toList = foldCase name.toList

/-- Numbers are signed 32-bit integers. -/
def inRange (i : Int) : Bool := decide (-2147483648 ≤ i ∧ i < 2147483648)

def natural (digits : List Char) : Nat := digits.foldl (fun n c => 10 * n + (c.toNat - 48)) 0

/-- An optional sign and at least one digit. -/
def readInteger (s : List Char) : Except Fault Int :=
  let (negative, digits) := match s with
    | '+' :: r => (false, r)
    | '-' :: r => (true, r)
    | r => (false, r)
  if digits.isEmpty || !digits.all Char.isDigit then .error .invalid
  else
    let i : Int := if negative then -(natural digits : Int) else natural digits
    if inRange i then .ok i else .error .outOfRange

/-- The number before `n`; a sign alone stands for one. -/
def readStep : List Char → Except Fault Int
  | [] | ['+'] => .ok 1
  | ['-'] => .ok (-1)
  | s => readInteger s

/-- The number behind `n`, which has to carry its sign. -/
def readShift : List Char → Except Fault Int
  | [] => .ok 0
  | c :: s => if c = '+' || c = '-' then readInteger (c :: s) else .error .invalid

/-- Spelling without whitespace and in lower case. -/
def normalize (s : List Char) : List Char := foldCase (s.filter fun c => !isWhitespace c)

def readNormal (s : List Char) : Except Fault AnPlusB :=
  if s = "odd".toList then .ok odd
  else if s = "even".toList then .ok even
  else match s.dropWhile (· ≠ 'n') with
    | [] => (readInteger s).map (⟨0, ·⟩)
    | _ :: r => do
      let a ← readStep (s.takeWhile (· ≠ 'n'))
      let b ← readShift r
      pure ⟨a, b⟩

/-- Reads `odd`, `even`, an integer or `An+B`, whatever its case and whitespace. -/
def read (s : List Char) : Except Fault AnPlusB := readNormal (normalize s)

end AnPlusB

end SelectorSyntax
