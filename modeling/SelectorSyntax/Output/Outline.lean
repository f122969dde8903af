import SelectorSyntax.Text.Escaped
namespace SelectorSyntax.Output

open Text

/-- A value laid out by the names of its parts. A tuple is a tag without a name, and an abridged
record does not show all its fields. -/
inductive Outline
  | atom (text : String)
  | quoted (text : String)
  | tagged (name : String) (items : List Outline)
  | list (items : List Outline)
  | record (name : String) (fields : List (String × Outline))
  | abridged (name : String) (fields : List (String × Outline))

namespace Outline

def some (o : Outline) : Outline := tagged "Some" [o]

def ofOption {α : Type} (f : α → Outline) : Option α → Outline
  | none => atom "None"
  | Option.some a => some (f a)

mutual

/-- On one line. -/
def line : Outline → String
  | atom t => t
  | quoted t => Escaped.quoted t
  | tagged name items => name ++ "(" ++ String.intercalate ", " (lineItems items) ++ ")"
  | list items => "[" ++ String.intercalate ", " (lineItems items) ++ "]"
  | record name fields => name ++ " \x7b " ++ String.intercalate ", " (lineFields fields) ++ " \x7d"
  | abridged name fields =>
    name ++ " \x7b " ++ String.intercalate ", " (lineFields fields ++ [".."]) ++ " \x7d"

def lineItems : List Outline → List String
  | [] => []
  | o :: os => o.line :: lineItems os

def lineFields : List (String × Outline) → List String
  | [] => []
  | (key, o) :: fs => (key ++ ": " ++ o.line) :: lineFields fs

end

def margin (depth : Nat) : String := String.ofList (List.replicate (4 * depth) ' ')

mutual

/-- One part a line, set in by four spaces for each part it lies in. -/
def block (depth : Nat) : Outline → String
  | atom t => t
  | quoted t => Escaped.quoted t
  | tagged name items => name ++ "(\n" ++ blockItems (depth + 1) items ++ margin depth ++ ")"
  | list [] => "[]"
  | list (o :: os) => "[\n" ++ blockItems (depth + 1) (o :: os) ++ margin depth ++ "]"
  | record name fields => name ++ " \x7b\n" ++ blockFields (depth + 1) fields ++ margin depth ++ "\x7d"
  | abridged name fields =>
    name ++ " \x7b\n" ++ blockFields (depth + 1) fields ++ margin (depth + 1) ++ "..\n" ++ margin depth ++ "\x7d"

def blockItems (depth : Nat) : List Outline → String
  | [] => ""
  | o :: os => margin depth ++ o.block depth ++ ",\n" ++ blockItems depth os

def blockFields (depth : Nat) : List (String × Outline) → String
  | [] => ""
  | (key, o) :: fs => margin depth ++ key ++ ": " ++ o.block depth ++ ",\n" ++ blockFields depth fs

end

end Outline

end SelectorSyntax.Output
