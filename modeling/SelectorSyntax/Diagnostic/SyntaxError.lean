import SelectorSyntax.Bracket
import SelectorSyntax.Diagnostic.Expectation
import SelectorSyntax.Diagnostic.Kind
import SelectorSyntax.Text.Escaped
import SelectorSyntax.Text.Position
namespace SelectorSyntax.Diagnostic

open Grammar Text

/-- A text beside a part of the source. -/
structure Label where
  text : String
  offset : Nat
  length : Nat
deriving DecidableEq, Repr

structure SyntaxError where
  kind : Kind
  message : String
  expected : List Expectation
  found : Option String
  location : Location
  source : String
  label : Label
  help : Option String
deriving DecidableEq, Repr

namespace SyntaxError

def code (e : SyntaxError) : String := "css_selector::" ++ e.kind.code

def wantsCompound (positives : List Rule) : Bool :=
  positives.any fun r => r ∈
    [Rule.selectorList, .complexSelector, .compoundSelector, .typeSelector, .idSelector, .classSelector,
      .attributeSelector, .pseudoClass, .pseudoElement]

/-- Nothing but a separator or the end of the text follows. A single bar is no combinator. -/
def endsCompound (s : List Char) : Bool :=
  match Blank.skip s with
  | [] => true
  | '|' :: '|' :: _ => true
  | c :: _ => c ∈ [',', '>', '+', '~', ')']

/-- The most telling reason for a failure where `rest` is left of the text. -/
def classify (rest : List Char) (offset : Nat) (positives : List Rule) (brackets : Bracket.Report) : Kind :=
  let fallback := if wantsCompound positives && endsCompound rest then .emptyCompound else .unexpectedInput
  match rest with
  | [] => if brackets.unclosed.isEmpty then fallback else .unmatchedBracket
  | c :: _ =>
    if CharClass.isQuote c && (Quoted.read rest).isNone then .unterminatedString
    else if c = '\\' && !Escape.isValid rest then .invalidEscape
    else if (c = ')' || c = ']') && brackets.isStray offset then .unmatchedBracket
    else fallback

def helpFor (positives : List Rule) (atEnd : Bool) : Option String :=
  if .nthValue ∈ positives then some "Use an An+B expression such as 2n+1, odd, even or 3"
  else if .attributeMatcher ∈ positives ∨ .bracketClose ∈ positives then
    some "Attribute selectors look like [name], [name=value] or [name^='value' i]"
  else if .ident ∈ positives ∧ !atEnd then some "Names must start with a letter, '_', '-' or an escape"
  else none

def describeFound (found : List Char) : String :=
  if found.isEmpty then "end of input" else "\"" ++ Escaped.excerpt found ++ "\""

def describe (expected : List Expectation) (found : List Char) : String :=
  "expected " ++ Expectation.describe expected ++ " but " ++ describeFound found ++ " found"

def markerAt (input : List Char) (l : Location) (text : String) : Label :=
  let (offset, length) := l.span (Place.byteSize input)
  ⟨text, offset, length⟩

/-- The error for rules tried in vain at an offset of the input. -/
def ofAttempts (input : List Char) (offset : Nat) (positives negatives : List Rule)
    (brackets : Bracket.Report) : SyntaxError :=
  let rest := Place.restAt input offset
  let found := rest.take 1
  let expected := Expectation.ofAttempts positives negatives
  let kind := classify rest offset positives brackets
  let location := Location.ofChar input offset
  let description := describe expected found
  { kind
    message := if kind = .unexpectedInput then description else kind.headline ++ ": " ++ description
    expected
    found := if found.isEmpty then none else some (String.ofList found)
    location
    source := String.ofList input
    label := markerAt input location
      (if kind = .unexpectedInput then "expected " ++ Expectation.describe expected else kind.headline)
    help := kind.help?.or (helpFor positives found.isEmpty) }

/-- The characters from one offset to another. -/
def excerptAt (input : List Char) (start stop : Nat) : List Char :=
  Place.takeBytes (Place.restAt input start) (stop - start)

/-- The error for a part of an input that the grammar has accepted. -/
def ofSpan (input : List Char) (kind : Kind) (start stop : Nat) (message : String)
    (expected : List Expectation) : SyntaxError :=
  let location := Location.ofOffsets input start stop
  let found := excerptAt input start location.stop.offset
  { kind
    message
    expected
    found := if found.isEmpty then none else some (String.ofList found)
    location
    source := String.ofList input
    label := markerAt input location kind.headline
    help := kind.help? }

def tooDeep (input : List Char) (offset maxDepth : Nat) : SyntaxError :=
  ofSpan input .nestingTooDeep offset (Location.ofChar input offset).stop.offset
    s!"nesting too deep: more than {maxDepth} nested brackets at offset {offset}" []

end SyntaxError

end SelectorSyntax.Diagnostic
