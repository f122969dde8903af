namespace SelectorSyntax.Unicode

/-- Code points from the first number of a pair to its second, both included. -/
abbrev Ranges := List (Nat × Nat)

def Ranges.contains (rs : Ranges) (c : Char) : Bool := rs.any fun r => decide (r.1 ≤ c.toNat ∧ c.toNat ≤ r.2)

end SelectorSyntax.Unicode
