import SelectorSyntax.Diagnostic.OfDefect
namespace SelectorSyntax

open Diagnostic Grammar Selector

/-- What a whole text is read as. -/
inductive StartRule
  | selectors
  | text
deriving DecidableEq, Repr

namespace StartRule

def name : StartRule → String
  | selectors => "start"
  | text => "start_text"

def ofName? (s : String) : Option StartRule := [selectors, text].find? fun r => r.name = s

def unknownMessage (s : String) : String :=
  "unknown start rule '" ++ s ++ "', expected 'start' or 'start_text'"

end StartRule

/-- Brackets that may be open at once unless the caller says otherwise. -/
def defaultMaxDepth : Nat := 32

structure ParseOptions where
  startRule : StartRule := .selectors
  maxDepth : Nat := defaultMaxDepth
deriving DecidableEq, Repr

/-- Shaped by the start rule. -/
inductive Parsed
  | selectors (list : SelectorList)
  | text (value : Parameter)

namespace Parsed

def selectors? : Parsed → Option SelectorList
  | selectors l => some l
  | text _ => none

def text? : Parsed → Option Parameter
  | selectors _ => none
  | text p => some p

end Parsed

/-- Matches a rule for whole texts. The brackets are scanned first, so that no text can make the
matching nest deeper than allowed. -/
def matchRoot (rule : Rule) (input : List Char) (maxDepth : Nat) : Except SyntaxError Node :=
  match Bracket.scan input maxDepth with
  | .error e => .error (.tooDeep input e.offset maxDepth)
  | .ok brackets =>
    match rule.parse input with
    | .error f =>
      .error (.ofAttempts input (Text.Place.offsetOf input f.place) f.positives f.negatives brackets)
    | .ok (_, [root]) => .ok root
    | .ok _ => .error (.ofDefect input (.misshapen input))

def parseSelectorList (input : List Char) (maxDepth : Nat) : Except SyntaxError SelectorList :=
  (matchRoot .selectors input maxDepth).bind fun root =>
    (OfNodes.selectors root).mapError (.ofDefect input)

/-- Reads tokens as they stand between the parentheses of a pseudo-class. -/
def parseTextFragment (input : List Char) (maxDepth : Nat) : Except SyntaxError Parameter :=
  (matchRoot .text input maxDepth).bind fun root => (OfNodes.text root).mapError (.ofDefect input)

def parseWith (input : String) (options : ParseOptions) : Except SyntaxError Parsed :=
  match options.startRule with
  | .selectors => (parseSelectorList input.toList options.maxDepth).map .selectors
  | .text => (parseTextFragment input.toList options.maxDepth).map .text

def parse (input : String) : Except SyntaxError SelectorList :=
  parseSelectorList input.toList defaultMaxDepth

def parseText (input : String) : Except SyntaxError Parameter :=
  parseTextFragment input.toList defaultMaxDepth

end SelectorSyntax
