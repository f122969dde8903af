namespace SelectorSyntax.Text.CharClass

def isNewline (c : Char) : Bool := c = '\n' || c = '\r' || c = '\x0c'

def isWhitespace (c : Char) : Bool := c = ' ' || c = '\t' || isNewline c

def isAscii (c : Char) : Bool := decide (c.toNat < 128)

/-- Every character outside ASCII can stand in a name, whatever it means. -/
def isIdentStart (c : Char) : Bool := c.isAlpha || c = '_' || !isAscii c

def isIdentChar (c : Char) : Bool := isIdentStart c || c.isDigit || c = '-'

def hexValue? (c : Char) : Option Nat :=
  if '0' ≤ c ∧ c ≤ '9' then some (c.toNat - 48)
  else if 'a' ≤ c ∧ c ≤ 'f' then some (c.toNat - 87)
  else if 'A' ≤ c ∧ c ≤ 'F' then some (c.toNat - 55)
  else none

def isHexDigit (c : Char) : Bool := (hexValue? c).isSome

def isQuote (c : Char) : Bool := c = '"' || c = '\''

/-- Letters are compared without regard to ASCII case; all other characters as they are. -/
def sameLetter (c d : Char) : Bool := c.toLower = d.toLower

end SelectorSyntax.Text.CharClass
