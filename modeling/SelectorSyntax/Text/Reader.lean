import SelectorSyntax.Text.Blank
import SelectorSyntax.Text.LexicalError
import SelectorSyntax.Text.Quoted
namespace SelectorSyntax.Text.Reader

open Place

/-- The readers by byte offset: each gives what it read and the offset behind it. Inside a character
and past the end there is nothing to read, just as at the end itself. -/
abbrev Answer (α : Type) := Except LexicalError (α × Nat)

/-- The offset of `after`, if `before` is what is left at `offset`. -/
def advance (offset : Nat) (before after : List Char) : Nat := offset + offsetOf before after

def skipBlank (input : List Char) (offset : Nat) : Nat :=
  let s := restAt input offset
  advance offset s (Blank.skip s)

def isValidEscape (input : List Char) (offset : Nat) : Bool := Escape.isValid (restAt input offset)

/-- The backslash is the byte at `offset` and is not looked at. -/
def escape (input : List Char) (offset : Nat) : Answer Char :=
  let s := restAt input (offset + 1)
  match Escape.read s with
  | none => .error (.invalidEscape offset)
  | some (c, t) => .ok (c, advance (offset + 1) s t)

def quoted (input : List Char) (offset : Nat) : Answer (List Char) :=
  let s := restAt input offset
  match Quoted.read s with
  | none => .error (.unterminatedString offset)
  | some (v, t) => .ok (v, advance offset s t)

/-- An identifier is read from a place of the text only: off the text there is no answer. -/
def identifier? (input : List Char) (offset : Nat) : Option (Answer (List Char)) :=
  (dropBytes? input offset).map fun s =>
    match Identifier.read s with
    | .error e => .error (.ofIdentifier s offset e)
    | .ok (v, t) => .ok (v, advance offset s t)

def decodeIdentifier (text : List Char) : Except LexicalError (List Char) :=
  (Identifier.decode text).mapError (.ofIdentifier text 0)

def decodeQuoted (text : List Char) : Except LexicalError (List Char) :=
  match Quoted.decode text with
  | none => .error (.unterminatedString 0)
  | some v => .ok v

/-- One character on, where one starts. -/
def next (input : List Char) (offset : Nat) : Nat :=
  let s := restAt input offset
  advance offset s s.tail

end SelectorSyntax.Text.Reader
