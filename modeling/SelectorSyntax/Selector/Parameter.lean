namespace SelectorSyntax.Selector

/-- The argument of a pseudo-class or pseudo-element, structured only as far as its brackets go: a
list holds tokens as they were written, and a group is a list that begins and ends with its brackets. -/
inductive Parameter
  | text (value : String)
  | list (items : List Parameter)

namespace Parameter

def asText? : Parameter → Option String
  | text t => some t
  | list _ => none

def asList? : Parameter → Option (List Parameter)
  | text _ => none
  | list ps => some ps

mutual

/-- How many lists lie inside one another. -/
def depth : Parameter → Nat
  | text _ => 0
  | list ps => 1 + depthOfAll ps

def depthOfAll : List Parameter → Nat
  | [] => 0
  | p :: ps => max p.depth (depthOfAll ps)

end

end Parameter

end SelectorSyntax.Selector
