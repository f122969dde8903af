namespace SelectorSyntax.Diagnostic

inductive Kind
  | unexpectedInput
  | unterminatedString
  | invalidEscape
  | unmatchedBracket
  | pseudoElementNotLast
  | emptyCompound
  | nestingTooDeep
  | numberOutOfRange
deriving DecidableEq, Repr

namespace Kind

def code : Kind → String
  | unexpectedInput => "unexpected_input"
  | unterminatedString => "unterminated_string"
  | invalidEscape => "invalid_escape"
  | unmatchedBracket => "unmatched_bracket"
  | pseudoElementNotLast => "pseudo_element_not_last"
  | emptyCompound => "empty_compound"
  | nestingTooDeep => "nesting_too_deep"
  | numberOutOfRange => "number_out_of_range"

def headline : Kind → String
  | unexpectedInput => "unexpected input"
  | unterminatedString => "unterminated string"
  | invalidEscape => "invalid escape sequence"
  | unmatchedBracket => "unmatched bracket"
  | pseudoElementNotLast => "pseudo-element is not last"
  | emptyCompound => "missing selector"
  | nestingTooDeep => "nesting too deep"
  | numberOutOfRange => "number out of range"

def help? : Kind → Option String
  | unexpectedInput => none
  | unterminatedString => some "Close the string with a matching quote before the end of the line"
  | invalidEscape => some "A backslash must be followed by a character other than a newline"
  | unmatchedBracket => some "Check that every '(' and '[' has a matching ')' and ']'"
  | pseudoElementNotLast => some "A pseudo-element such as ::before must end its compound selector"
  | emptyCompound => some "Combinators and commas must be followed by a selector, like: a > b"
  | nestingTooDeep => some "Reduce the number of nested parentheses and brackets"
  | numberOutOfRange => some "An+B coefficients must fit in a 32-bit signed integer"

end Kind

end SelectorSyntax.Diagnostic
