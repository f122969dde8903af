import SelectorSyntax.Text.Identifier
import SelectorSyntax.Text.Place
namespace SelectorSyntax.Text

inductive LexicalError
  | invalidEscape (offset : Nat)
  | unterminatedString (offset : Nat)
  | expectedIdentifier (offset : Nat)
  | invalidNth (offset : Nat)
  | numberOutOfRange (offset : Nat)
  | nestingTooDeep (offset maxDepth : Nat)
deriving DecidableEq, Repr

namespace LexicalError

def offset : LexicalError → Nat
  | invalidEscape o | unterminatedString o | expectedIdentifier o | invalidNth o | numberOutOfRange o => o
  | nestingTooDeep o _ => o

def message : LexicalError → String
  | invalidEscape _ => "invalid escape sequence"
  | unterminatedString _ => "unterminated string"
  | expectedIdentifier _ => "expected identifier"
  | invalidNth _ => "invalid An+B expression"
  | numberOutOfRange _ => "An+B value out of range"
  | nestingTooDeep _ d => s!"nesting deeper than {d} levels"

/-- A fault found while reading from `start`, which is `base` bytes into the input. -/
def ofIdentifier (start : List Char) (base : Nat) : Identifier.Fault → LexicalError
  | .missing p => expectedIdentifier (base + Place.offsetOf start p)
  | .badEscape p => invalidEscape (base + Place.offsetOf start p)

end LexicalError

end SelectorSyntax.Text
