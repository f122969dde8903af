import SelectorSyntax.Proofs.Completion.Lists

namespace SelectorSyntax.Grammar

open Expression

variable {r : Rule} {f : Failure} {input : List Char}

/-- The place of a failure is one where a rule was tried. -/
theorem Rule.reaches_failure (r : Rule) (s : List Char) : (call r).Reaches s (r.failure s).place := by
  obtain ⟨q, u, hreach, hleft⟩ := r.left_attempts s
  have hu : (call r).Reaches s u := ⟨r, s, q, .call, hreach⟩
  obtain ⟨w, rfl⟩ := hu.suffix
  have hplace : (r.failure (w ++ u)).place = u := by
    rw [Rule.failure, hleft, List.length_append, Nat.add_sub_cancel, List.drop_left]
  rwa [hplace]

/-- What stands before the place of a failure can be gone on with to a text that is taken as a whole. -/
theorem parse_completes (hr : r = .selectors ∨ r = .text) (h : r.parse input = .error f) :
    ∃ before t ns, input = before ++ f.place ∧ r.parse (before ++ t) = .ok ([], ns) := by
  have hf : f = r.failure input := by
    rw [Rule.parse] at h
    split at h
    next =>
      cases h
      rfl
    next => cases h
  subst hf
  have hreaches := r.reaches_failure input
  obtain ⟨w, hw⟩ := hreaches.suffix
  generalize (r.failure input).place = u at hreaches hw
  subst hw
  have hcompletes : (call r).Completes w := by
    rcases hr with rfl | rfl
    · exact Selector.Spelling.completes_selectors hreaches
    · exact Bracket.completes_text hreaches
  obtain ⟨t, -, ns, hrun⟩ := hcompletes
  have hrun : r.run (w ++ t) = some ([], ns) := hrun
  exact ⟨w, t, ns, rfl, by rw [Rule.parse, hrun]⟩

/-- The number is refused where it begins. -/
theorem parse_completes_nth :
    Rule.selectors.parse "a > :nth-child(2n+x), b".toList =
        .error (Rule.selectors.failure "a > :nth-child(2n+x), b".toList) ∧
      ∃ before t ns, "a > :nth-child(2n+x), b".toList =
          before ++ (Rule.selectors.failure "a > :nth-child(2n+x), b".toList).place ∧
        Rule.selectors.parse (before ++ t) = .ok ([], ns) := by
  have hrun : Rule.selectors.run "a > :nth-child(2n+x), b".toList = none := by cbv
  have h : Rule.selectors.parse "a > :nth-child(2n+x), b".toList =
      .error (Rule.selectors.failure "a > :nth-child(2n+x), b".toList) := by rw [Rule.parse, hrun]
  exact ⟨h, parse_completes (Or.inl rfl) h⟩

end SelectorSyntax.Grammar
