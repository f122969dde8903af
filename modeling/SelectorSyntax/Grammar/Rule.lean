namespace SelectorSyntax.Grammar

/-- The rules of the grammar, in the order in which reports list them. -/
inductive Rule
  | endOfInput
  | selectors
  | text
  | selectorList
  | complexSelector
  | combinator
  | combinatorSymbol
  | descendant
  | comma
  | compoundSelector
  | simpleSelector
  | typeSelector
  | universal
  | idSelector
  | classSelector
  | attributeSelector
  | attributeMatcher
  | attributeValue
  | attributeModifier
  | pseudoElement
  | pseudoClass
  | pseudoTail
  | nthName
  | nthArguments
  | nthValue
  | nthSpace
  | arguments
  | argument
  | argItem
  | argSpace
  | argGroup
  | argDelim
  | parenClose
  | bracketClose
  | ident
  | nmstart
  | nmchar
  | nonAscii
  | escape
  | string
  | stringEscape
  | number
  | ws
  | wsChar
  | comment
deriving DecidableEq, Repr

namespace Rule

def all : List Rule :=
  [endOfInput, selectors, text, selectorList, complexSelector, combinator, combinatorSymbol, descendant,
    comma, compoundSelector, simpleSelector, typeSelector, universal, idSelector, classSelector,
    attributeSelector, attributeMatcher, attributeValue, attributeModifier, pseudoElement, pseudoClass,
    pseudoTail, nthName, nthArguments, nthValue, nthSpace, arguments, argument, argItem, argSpace,
    argGroup, argDelim, parenClose, bracketClose, ident, nmstart, nmchar, nonAscii, escape, string,
    stringEscape, number, ws, wsChar, comment]

theorem mem_all (r : Rule) : r ∈ all := by cases r <;> decide

def name : Rule → String
  | endOfInput => "EOI"
  | selectors => "selectors"
  | text => "text"
  | selectorList => "selector_list"
  | complexSelector => "complex_selector"
  | combinator => "combinator"
  | combinatorSymbol => "combinator_symbol"
  | descendant => "descendant"
  | comma => "comma"
  | compoundSelector => "compound_selector"
  | simpleSelector => "simple_selector"
  | typeSelector => "type_selector"
  | universal => "universal"
  | idSelector => "id_selector"
  | classSelector => "class_selector"
  | attributeSelector => "attribute_selector"
  | attributeMatcher => "attribute_matcher"
  | attributeValue => "attribute_value"
  | attributeModifier => "attribute_modifier"
  | pseudoElement => "pseudo_element"
  | pseudoClass => "pseudo_class"
  | pseudoTail => "pseudo_tail"
  | nthName => "nth_name"
  | nthArguments => "nth_arguments"
  | nthValue => "nth_value"
  | nthSpace => "nth_space"
  | arguments => "arguments"
  | argument => "argument"
  | argItem => "arg_item"
  | argSpace => "arg_space"
  | argGroup => "arg_group"
  | argDelim => "arg_delim"
  | parenClose => "paren_close"
  | bracketClose => "bracket_close"
  | ident => "ident"
  | nmstart => "nmstart"
  | nmchar => "nmchar"
  | nonAscii => "non_ascii"
  | escape => "escape"
  | string => "string"
  | stringEscape => "string_escape"
  | number => "number"
  | ws => "ws"
  | wsChar => "ws_char"
  | comment => "comment"

def ofName? (s : String) : Option Rule := all.find? fun r => r.name = s

/-- A token is one piece of text: nothing inside it is reported. -/
def isToken : Rule → Bool
  | combinatorSymbol | attributeMatcher | attributeModifier | nthName | nthValue | argDelim | ident | string
  | number => true
  | _ => false

/-- A silent rule is a name for an expression: it makes no node and is not reported. -/
def isSilent : Rule → Bool
  | simpleSelector | attributeValue | pseudoTail | nthSpace | argItem | nmstart | nmchar | nonAscii | escape
  | stringEscape | ws | wsChar | comment => true
  | _ => false

end Rule

end SelectorSyntax.Grammar
