import SelectorSyntax.Grammar.Match
namespace SelectorSyntax.Grammar

/-- The rules tried in vain at the farthest place where any was, which is the place where `left`
characters are left. Under a negation a rule is tried in vain when it matches. -/
structure Attempts where
  left : Nat
  positives : List Rule
  negatives : List Rule

namespace Attempts

def start (s : List Char) : Attempts := ⟨s.length, [], []⟩

def positivesAt (a : Attempts) (s : List Char) : List Rule := if s.length = a.left then a.positives else []

def negativesAt (a : Attempts) (s : List Char) : List Rule := if s.length = a.left then a.negatives else []

def countAt (a : Attempts) (s : List Char) : Nat := (a.positivesAt s).length + (a.negativesAt s).length

/-- Adds a rule tried at `s`, before and after which the attempts were as given. A single attempt of a
part at the same place says more than the rule itself and stays; several are replaced by it. -/
def record (before after : Attempts) (negated : Bool) (r : Rule) (s : List Char) : Attempts :=
  if after.countAt s = before.countAt s + 1 then after
  else if after.left < s.length then after
  else if negated then ⟨s.length, before.positivesAt s, before.negativesAt s ++ [r]⟩
  else ⟨s.length, before.positivesAt s ++ [r], before.negativesAt s⟩

/-- Each rule once, in the order of the grammar. -/
def inOrder (rs : List Rule) : List Rule := Rule.all.filter (· ∈ rs)

end Attempts

abbrev Tracker := Bool → List Char → Attempts → Attempts

def trackRepeated (m : Matcher) (track : Tracker) : Nat → Tracker
  | 0, _, _, a => a
  | n + 1, negated, s, a =>
    let b := track negated s a
    match m s with
    | none => b
    | some (t, _) => trackRepeated m track n negated t b

/-- The attempts after an expression was tried, whether it matched or not. -/
def Expression.track (rules : Rule → Matcher) (trackers : Rule → Tracker) : Expression → Tracker
  | empty, _, _, a => a
  | char _, _, _, a => a
  | seq e f, negated, s, a =>
    let b := e.track rules trackers negated s a
    match e.run rules s with
    | none => b
    | some (t, _) => f.track rules trackers negated t b
  | choice e f, negated, s, a =>
    let b := e.track rules trackers negated s a
    match e.run rules s with
    | none => f.track rules trackers negated s b
    | some _ => b
  | star e, negated, s, a =>
    trackRepeated (e.run rules) (e.track rules trackers) (rounds s) negated s a
  | absent e, negated, s, a => e.track rules trackers (!negated) s a
  | call r, negated, s, a => trackers r negated s a

def Rule.trackWithin : Nat → Rule → Tracker
  | 0, _, _, _, a => a
  | depth + 1, r, negated, s, a =>
    let b := (body r).track (runWithin depth) (trackWithin depth) negated s a
    let vain := ((body r).run (runWithin depth) s).isSome == negated
    if r.isSilent || !vain then b else a.record b negated r s

/-- The attempts made by a rule that was tried at the front of a text. -/
def Rule.attempts (r : Rule) (s : List Char) : Attempts := trackWithin (nesting s) r false s (.start s)

/-- Where and with which rules a rule failed. -/
structure Failure where
  place : List Char
  positives : List Rule
  negatives : List Rule

def Rule.failure (r : Rule) (s : List Char) : Failure :=
  let a := r.attempts s
  ⟨s.drop (s.length - a.left), Attempts.inOrder a.positives, Attempts.inOrder a.negatives⟩

/-- Matches a rule at the front of a text, or tells how far it came. -/
def Rule.parse (r : Rule) (s : List Char) : Except Failure (List Char × List Node) :=
  match r.run s with
  | none => .error (r.failure s)
  | some x => .ok x

end SelectorSyntax.Grammar
