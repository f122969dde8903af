import SelectorSyntax.Grammar.Body
import SelectorSyntax.Text.Place
namespace SelectorSyntax.Grammar

/-- A rule that matched: the text left where it started and where it stopped, and the rules that
matched inside it. -/
structure Node where
  rule : Rule
  start : List Char
  stop : List Char
  children : List Node

def Node.text (n : Node) : List Char := Text.Place.between n.start n.stop

abbrev Outcome := Option (List Char × List Node)

abbrev Matcher := List Char → Outcome

/-- As many matches in a row as there are, at most `n`. -/
def repeated (m : Matcher) : Nat → List Char → List Char × List Node
  | 0, s => (s, [])
  | n + 1, s =>
    match m s with
    | none => (s, [])
    | some (t, ns) => let (u, ms) := repeated m n t; (u, ns ++ ms)

/-- Every round of a repetition takes at least one character, so one round more than there are
characters is never reached with success. -/
def rounds (s : List Char) : Nat := s.length + 1

/-- Matches an expression at the front of a text, with a matcher for the rules it calls. -/
def Expression.run (rules : Rule → Matcher) : Expression → Matcher
  | empty, s => some (s, [])
  | char _, [] => none
  | char p, c :: s => if p c then some (s, []) else none
  | seq e f, s =>
    match e.run rules s with
    | none => none
    | some (t, ns) => (f.run rules t).map fun (u, ms) => (u, ns ++ ms)
  | choice e f, s =>
    match e.run rules s with
    | none => f.run rules s
    | some r => some r
  | star e, s => some (repeated (e.run rules) (rounds s) s)
  | absent e, s =>
    match e.run rules s with
    | none => some (s, [])
    | some _ => none
  | call r, s => rules r s

/-- What a rule makes of a match of its body. -/
def Rule.wrap (r : Rule) (s : List Char) : List Char × List Node → List Char × List Node
  | (t, ns) => if r.isSilent then (t, ns) else (t, [⟨r, s, t, if r.isToken then [] else ns⟩])

/-- Matches a rule that may have `depth` rules inside one another. -/
def Rule.runWithin : Nat → Rule → Matcher
  | 0, _, _ => none
  | depth + 1, r, s => ((body r).run (runWithin depth) s).map (r.wrap s)

/-- No text nests rules deeper than this: a rule inside itself is a group inside a group, two rules
deeper and at least one character on, and no more than ten rules lie above the outermost group. -/
def nesting (s : List Char) : Nat := 2 * s.length + 12

def Rule.run (r : Rule) : Matcher := fun s => runWithin (nesting s) r s

end SelectorSyntax.Grammar
