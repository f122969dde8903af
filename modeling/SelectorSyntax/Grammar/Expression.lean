import SelectorSyntax.Grammar.Rule
import SelectorSyntax.Text.CharClass
namespace SelectorSyntax.Grammar

open Text

/-- Parsing expressions: the first alternative that matches is taken, repetition takes all it can,
and nothing is taken back. -/
inductive Expression
  | empty
  | char (accepts : Char → Bool)
  | seq (first second : Expression)
  | choice (first second : Expression)
  | star (body : Expression)
  | absent (body : Expression)
  | call (rule : Rule)

namespace Expression

def seqs : List Expression → Expression
  | [] => empty
  | [e] => e
  | e :: es => seq e (seqs es)

/-- Without alternatives nothing matches. -/
def choices : List Expression → Expression
  | [] => absent empty
  | [e] => e
  | e :: es => choice e (choices es)

def maybe (e : Expression) : Expression := choice e empty

def plus (e : Expression) : Expression := seq e (star e)

def upTo : Nat → Expression → Expression
  | 0, _ => empty
  | n + 1, e => maybe (seq e (upTo n e))

/-- Whether `e` matches here. Like its absence, this takes no text. -/
def present (e : Expression) : Expression := absent (absent e)

def any : Expression := char fun _ => true

def exactly (c : Char) : Expression := char (· = c)

def oneOf (cs : List Char) : Expression := char (· ∈ cs)

def literal (t : String) : Expression := seqs (t.toList.map exactly)

def caseless (t : String) : Expression := seqs (t.toList.map fun c => char (CharClass.sameLetter c))

/-- Any one character at which `e` does not match. -/
def butNot (e : Expression) : Expression := seq (absent e) any

end Expression

end SelectorSyntax.Grammar
