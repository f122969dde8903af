import SelectorSyntax.Grammar.Expression
namespace SelectorSyntax.Grammar

open Text.CharClass Expression

def digit : Expression := char Char.isDigit

def wsChar : Expression := char isWhitespace

def comment : Expression := seqs [literal "/*", star (butNot (literal "*/")), literal "*/"]

def ws : Expression := plus (choice wsChar comment)

def newline : Expression := oneOf ['\n', '\r', '\x0c']

def nonAscii : Expression := butNot (char isAscii)

def escape : Expression :=
  seq (exactly '\\')
    (choice
      (seqs [char isHexDigit, upTo 5 (char isHexDigit), maybe (choice (literal "\r\n") wsChar)])
      (butNot newline))

def nmstart : Expression := choices [char Char.isAlpha, exactly '_', nonAscii, escape]

def nmchar : Expression := choices [char Char.isAlphanum, exactly '_', exactly '-', nonAscii, escape]

def stringEscape : Expression := seq (exactly '\\') (choice (literal "\r\n") any)

def quoted (q : Char) : Expression :=
  seqs [exactly q, star (choice stringEscape (butNot (choices [exactly q, exactly '\\', newline]))), exactly q]

def sign : Expression := oneOf ['+', '-']

def nthSpace : Expression := plus wsChar

def simpleSelector : Expression :=
  choices
    [call .idSelector, call .classSelector, call .attributeSelector, call .pseudoElement, call .pseudoClass]

def attributeValue : Expression := choice (call .string) (call .ident)

def pseudoTail : Expression :=
  choice (seq (call .nthName) (call .nthArguments))
    (seqs [absent (call .nthName), call .ident, maybe (call .arguments)])

def argItem : Expression :=
  choices [call .string, call .number, call .ident, call .argGroup, call .argDelim]

def group (opener : Char) (closer : Rule) : Expression :=
  seqs [exactly opener, maybe ws, maybe (call .argument), maybe ws, call closer]

/-- What each rule matches. The two entry rules are only ever tried at the start of a text. Whitespace
stands where a rule says so and nowhere else, because between compounds it is a combinator. -/
def body : Rule → Expression
  | .endOfInput => absent any
  | .selectors => seqs [maybe ws, call .selectorList, maybe ws, call .endOfInput]
  | .text => seqs [maybe ws, maybe (call .argument), maybe ws, call .endOfInput]
  | .selectorList =>
    seq (call .complexSelector) (star (seqs [maybe ws, call .comma, maybe ws, call .complexSelector]))
  | .complexSelector =>
    seq (call .compoundSelector) (star (seq (call .combinator) (call .compoundSelector)))
  | .combinator => choice (seqs [maybe ws, call .combinatorSymbol, maybe ws]) (call .descendant)
  | .combinatorSymbol => choices [literal "||", literal ">", literal "+", literal "~"]
  | .descendant => ws
  | .comma => exactly ','
  | .compoundSelector => choice (seq (call .typeSelector) (star simpleSelector)) (plus simpleSelector)
  | .simpleSelector => simpleSelector
  | .typeSelector => choice (call .universal) (call .ident)
  | .universal => exactly '*'
  | .idSelector => seq (exactly '#') (call .ident)
  | .classSelector => seq (exactly '.') (call .ident)
  | .attributeSelector =>
    seqs [exactly '[', maybe ws, call .ident,
      maybe (seqs [maybe ws, call .attributeMatcher, maybe ws, attributeValue,
        maybe (seq (maybe ws) (call .attributeModifier))]),
      maybe ws, call .bracketClose]
  | .attributeMatcher => choices (["~=", "|=", "^=", "$=", "*=", "="].map literal)
  | .attributeValue => attributeValue
  | .attributeModifier => seq (choice (caseless "i") (caseless "s")) (absent nmchar)
  | .pseudoElement => seq (literal "::") pseudoTail
  | .pseudoClass => seq (exactly ':') pseudoTail
  | .pseudoTail => pseudoTail
  | .nthName =>
    seq (choices (["nth-last-child", "nth-last-of-type", "nth-last-col", "nth-child", "nth-of-type",
      "nth-col"].map caseless)) (present (exactly '('))
  | .nthArguments => seqs [exactly '(', maybe ws, call .nthValue, maybe ws, call .parenClose]
  | .nthValue =>
    choices
      [seq (choice (caseless "odd") (caseless "even")) (absent nmchar),
        seqs [maybe sign, star digit, caseless "n",
          maybe (seqs [maybe nthSpace, sign, maybe nthSpace, plus digit]), absent nmchar],
        seqs [maybe sign, plus digit, absent nmchar]]
  | .nthSpace => nthSpace
  | .arguments => group '(' .parenClose
  | .argument => seq argItem (star (seq (maybe (call .argSpace)) argItem))
  | .argItem => argItem
  | .argSpace => ws
  | .argGroup => choice (group '(' .parenClose) (group '[' .bracketClose)
  | .argDelim =>
    butNot (choice (oneOf ['(', ')', '[', ']', '"', '\'', '\\']) wsChar)
  | .parenClose => exactly ')'
  | .bracketClose => exactly ']'
  | .ident => seq (choice (literal "--") (seq (maybe (exactly '-')) nmstart)) (star nmchar)
  | .nmstart => nmstart
  | .nmchar => nmchar
  | .nonAscii => nonAscii
  | .escape => escape
  | .string => choice (quoted '"') (quoted '\'')
  | .stringEscape => stringEscape
  | .number =>
    seqs [maybe sign, choice (seqs [star digit, exactly '.', plus digit]) (plus digit), star nmchar]
  | .ws => ws
  | .wsChar => wsChar
  | .comment => comment

end SelectorSyntax.Grammar
