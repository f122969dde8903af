import SelectorSyntax.Unicode.GraphemeExtend
import SelectorSyntax.Unicode.Unprintable
namespace SelectorSyntax.Text.Escaped

open Unicode

def codePoint (c : Char) : String := "\\u\x7b" ++ String.ofList (Nat.toDigits 16 c.toNat) ++ "\x7d"

/-- How a character is shown between quotes. The quotes that would end the text are escaped, and so
is what cannot be seen; characters that join the one before them only if `joiners` says so. -/
def showChar (quotes : List Char) (joiners : Bool) (c : Char) : String :=
  if c = '\x00' then "\\0"
  else if c = '\t' then "\\t"
  else if c = '\r' then "\\r"
  else if c = '\n' then "\\n"
  else if c = '\\' || c ∈ quotes then String.ofList ['\\', c]
  else if joiners && attachesToPrevious c then codePoint c
  else if isUnprintable c then codePoint c
  else String.singleton c

/-- In a message a joining character is escaped only where it would join the opening quote. -/
def excerpt : List Char → String
  | [] => ""
  | c :: s => showChar ['"', '\''] true c ++ String.join (s.map (showChar ['"', '\''] false))

/-- In a dump every joining character is escaped. -/
def quoted (s : String) : String := "\"" ++ String.join (s.toList.map (showChar ['"'] true)) ++ "\""

end SelectorSyntax.Text.Escaped
