import SelectorSyntax.Main
import SelectorSyntax.Text.Reader
import SelectorSyntax.Proofs.Grammar.Laws
import SelectorSyntax.Proofs.Grammar.Repetition
import SelectorSyntax.Proofs.Grammar.Unfold
import SelectorSyntax.Proofs.Tokens.Escape
import SelectorSyntax.Proofs.Tokens.Quoted
import SelectorSyntax.Proofs.Tokens.QuotedReading
import SelectorSyntax.Proofs.Tokens.StringAgreement
import SelectorSyntax.Proofs.Tokens.IdentifierAgreement
import SelectorSyntax.Proofs.Tokens.WrittenQuoted
import SelectorSyntax.Proofs.Grammar.Calls
import SelectorSyntax.Proofs.Bracket.Walk
import SelectorSyntax.Proofs.Tokens.Blank
import SelectorSyntax.Proofs.Bracket.Tokens
import SelectorSyntax.Proofs.Bracket.Matches
import SelectorSyntax.Proofs.Assembly.Results
import SelectorSyntax.Proofs.Assembly.Depth
import SelectorSyntax.Proofs.Bracket.Nesting
import SelectorSyntax.Proofs.Tokens.Identifier
import SelectorSyntax.Proofs.Spelling.Soundness
import SelectorSyntax.Proofs.Spelling.Completeness
import SelectorSyntax.Proofs.Bracket.Reading
import SelectorSyntax.Proofs.Bracket.Pairs
import SelectorSyntax.Proofs.Bracket.Recording
import SelectorSyntax.Proofs.Assembly.Totality
import SelectorSyntax.Proofs.Spelling.NthRange
import SelectorSyntax.Proofs.Assembly.Invariants
import SelectorSyntax.Proofs.Assembly.Defects
import SelectorSyntax.Proofs.Spelling.NthNames
import SelectorSyntax.Proofs.Diagnostic.Located
import SelectorSyntax.Proofs.Diagnostic.Label
import SelectorSyntax.Proofs.Bracket.Context
import SelectorSyntax.Proofs.Completion.Tokens
import SelectorSyntax.Proofs.Grammar.Tracking
import SelectorSyntax.Proofs.Diagnostic.EscapedNames
import SelectorSyntax.Proofs.Diagnostic.NthSpellings
import SelectorSyntax.Proofs.Completion.Basic
import SelectorSyntax.Proofs.Completion.Brackets
import SelectorSyntax.Proofs.Completion.Numbers
import SelectorSyntax.Proofs.Completion.Attributes
import SelectorSyntax.Proofs.Completion.Pseudos
import SelectorSyntax.Proofs.Completion.Compounds
import SelectorSyntax.Proofs.Completion.Lists
import SelectorSyntax.Proofs.Completion.Failure
import SelectorSyntax.Proofs.Diagnostic.Expectations
import SelectorSyntax.Proofs.Grammar.Failures
import SelectorSyntax.Proofs.Grammar.Farthest
import SelectorSyntax.Proofs.Diagnostic.Outermost
import SelectorSyntax.Proofs.Diagnostic.MissingSelector
import SelectorSyntax.Proofs.Spelling.Fragments
import SelectorSyntax.Proofs.Composition.Joined
import SelectorSyntax.Proofs.Bracket.Machine
import SelectorSyntax.Proofs.Spelling.Leaves
import SelectorSyntax.Proofs.Spelling.Stability
import SelectorSyntax.Proofs.Cut.Diagnosis
import SelectorSyntax.Proofs.Spelling.ClassNames
import SelectorSyntax.Proofs.Spelling.NthDecimal
import SelectorSyntax.Proofs.Diagnostic.Offsets
import SelectorSyntax.Proofs.Output.Decoding
import SelectorSyntax.Proofs.Assembly.TypeNames
import SelectorSyntax.Proofs.Check.Inputs
import SelectorSyntax.Proofs.Tokens.BlankAgreement
import SelectorSyntax.Proofs.Cursor.Safety
