import SelectorSyntax.Grammar.Rule
namespace SelectorSyntax.Diagnostic

open Grammar

inductive ExpectationKind
  | literal
  | characters
  | any
  | endOfInput
  | other
deriving DecidableEq, Repr

/-- One thing that could have stood where parsing stopped. -/
structure Expectation where
  kind : ExpectationKind
  description : String
  parts : List String
  inverted : Bool
  ignoreCase : Bool
deriving DecidableEq, Repr

namespace Expectation

def plain (kind : ExpectationKind) (description : String) : Expectation :=
  ⟨kind, description, [], false, false⟩

def literal (t : String) : Expectation := ⟨.literal, "\"" ++ t ++ "\"", [t], false, false⟩

def oneOf (description : String) (parts : List String) : Expectation :=
  ⟨.characters, description, parts, false, false⟩

def ofRule : Rule → Expectation
  | .endOfInput => plain .endOfInput "end of input"
  | .comma => literal ","
  | .universal => literal "*"
  | .parenClose => literal ")"
  | .bracketClose => literal "]"
  | .combinator | .descendant => plain .other "combinator"
  | .combinatorSymbol => oneOf "combinator" [">", "+", "~", "||"]
  | .selectors | .selectorList | .complexSelector | .compoundSelector => plain .other "selector"
  | .typeSelector => plain .other "type selector"
  | .idSelector => plain .other "id selector"
  | .classSelector => plain .other "class selector"
  | .attributeSelector => plain .other "attribute selector"
  | .attributeMatcher => oneOf "attribute matcher" ["~=", "|=", "^=", "$=", "*=", "="]
  | .attributeModifier => { oneOf "attribute modifier" ["i", "s"] with ignoreCase := true }
  | .pseudoClass => plain .other "pseudo-class"
  | .pseudoElement => plain .other "pseudo-element"
  | .nthName => { plain .other "nth pseudo-class name" with ignoreCase := true }
  | .nthArguments | .nthValue => plain .other "An+B expression"
  | .arguments | .argument | .argGroup => plain .other "argument"
  | .argSpace => plain .characters "whitespace"
  | .argDelim => plain .any "any character"
  | .ident => plain .other "identifier"
  | .string => plain .other "string"
  | .number => plain .other "number"
  | .text => plain .other "text"
  | r => plain .other (String.ofList (r.name.toList.map fun c => if c = '_' then ' ' else c))

/-- Expectations are listed by description, and what was not wanted after what was. -/
def precedes (a b : Expectation) : Bool :=
  decide (a.description < b.description) || (a.description = b.description && !a.inverted && b.inverted)

/-- Puts an expectation into its place in a list unless the list already says the same. -/
def insert (e : Expectation) : List Expectation → List Expectation
  | [] => [e]
  | x :: xs => if e.precedes x then e :: x :: xs else if x.precedes e then x :: insert e xs else x :: xs

/-- What the rules tried in vain say together: the first of equal entries stands for all. -/
def ofAttempts (positives negatives : List Rule) : List Expectation :=
  (positives.map ofRule ++ negatives.map fun r => { ofRule r with inverted := true }).foldl
    (fun es e => insert e es) []

def phrase (e : Expectation) : String := if e.inverted then "not " ++ e.description else e.description

/-- Alternatives in words. -/
def joinPhrases : List String → String
  | [] => "valid input"
  | [a] => a
  | [a, b] => a ++ " or " ++ b
  | a :: as => String.intercalate ", " (a :: as).dropLast ++ ", or " ++ (a :: as).getLastD ""

def describe (es : List Expectation) : String := joinPhrases (es.map phrase)

end Expectation

end SelectorSyntax.Diagnostic
