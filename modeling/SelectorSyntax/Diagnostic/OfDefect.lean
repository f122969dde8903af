import SelectorSyntax.Diagnostic.SyntaxError
import SelectorSyntax.Selector.OfNodes
namespace SelectorSyntax.Diagnostic.SyntaxError

open Grammar Selector.OfNodes Text

/-- What may stand behind a pseudo-element. -/
def afterPseudoElement : List Expectation := [.ofRule .comma, .ofRule .combinator, .ofRule .endOfInput]

/-- The error for selectors that the grammar accepts and that are none all the same. -/
def ofDefect (input : List Char) : Defect → SyntaxError
  | .afterPseudoElement element simple =>
    ofSpan input .pseudoElementNotLast (Place.offsetOf input simple.start) (Place.offsetOf input simple.stop)
      ("pseudo-element is not last: \"::" ++ element ++ "\" cannot be followed by \"" ++
        String.ofList simple.text ++ "\" in the same compound selector")
      afterPseudoElement
  | .outOfRange place written =>
    let start := Place.offsetOf input place
    ofSpan input .numberOutOfRange start (start + Place.byteSize written)
      ("number out of range: \"" ++ String.ofList written ++ "\" does not fit An+B")
      [.ofRule .nthValue]
  | .notNth f => ofAttempts input (Place.offsetOf input f.place) f.positives f.negatives .empty
  | .misshapen place =>
    let start := Place.offsetOf input place
    { ofSpan input .unexpectedInput start (Location.ofChar input start).stop.offset
        "the nodes of a match make no selector" [] with
      help := some "internal parser error, please report the selector" }

end SelectorSyntax.Diagnostic.SyntaxError
