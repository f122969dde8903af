import SelectorSyntax.Proofs.Tokens.Blank
import SelectorSyntax.Proofs.Tokens.IdentifierAgreement

namespace SelectorSyntax.Text.Blank

open Grammar Expression CharClass

variable {s t : List Char} {ns : List Node}

/-- A comment begins here that is closed somewhere behind its opening. -/
def Commented (s : List Char) : Prop := ∃ body rest, s = '/' :: '*' :: (body ++ '*' :: '/' :: rest)

theorem eq_append_of_closeComment? (h : closeComment? s = some t) : ∃ body, s = body ++ '*' :: '/' :: t := by
  induction s using closeComment?.induct with
  | case1 s =>
      rw [closeComment?] at h
      cases h
      exact ⟨[], rfl⟩
  | case2 c s hc ih =>
      rw [closeComment?.eq_2 c s hc] at h
      obtain ⟨body, rfl⟩ := ih h
      exact ⟨c :: body, rfl⟩
  | case3 => cases h

theorem closeComment?_ne_none (body rest : List Char) : closeComment? (body ++ '*' :: '/' :: rest) ≠ none := by
  induction body with
  | nil => simp [closeComment?]
  | cons c body ih =>
      rw [List.cons_append]
      by_cases hc : ∃ r, c = '*' ∧ body ++ '*' :: '/' :: rest = '/' :: r
      · obtain ⟨r, rfl, hr⟩ := hc
        simp [hr, closeComment?]
      · rwa [closeComment?.eq_2]
        exact fun r h₁ h₂ => hc ⟨r, h₁, h₂⟩

/-- The reader finds a comment exactly where one begins that is closed. -/
theorem comment?_eq_none_iff : comment? s = none ↔ ¬ Commented s := by
  constructor
  · rintro h ⟨body, rest, rfl⟩
    exact closeComment?_ne_none body rest h
  · intro h
    unfold comment?
    split
    next r =>
      cases hr : closeComment? r with
      | none => rfl
      | some t =>
          obtain ⟨body, rfl⟩ := eq_append_of_closeComment? hr
          exact absurd ⟨body, t, rfl⟩ h
    next => rfl

/-- The rule that stands for whitespace is tried as its body is, wherever that is written out. -/
theorem run_ws_rule (s : List Char) : Rule.ws.run s = ws.run Rule.run s := by
  rw [Rule.run_eq]
  exact Option.map_id'

theorem run_maybe_ws_rule (s : List Char) : (maybe (call .ws)).run Rule.run s = some (skip s, []) := by
  rw [← run_maybe_ws s, maybe, maybe, run_choice, run_choice, run_call, run_ws_rule]

end SelectorSyntax.Text.Blank

namespace SelectorSyntax.Text.Reader

open Grammar Expression CharClass Place

variable {before w t : List Char}

theorem skipBlank_append (before : List Char) (h : Blank.skip (w ++ t) = t) :
    skipBlank (before ++ (w ++ t)) (byteSize before) = byteSize (before ++ w) := by
  simp only [skipBlank, restAt_append, h, advance_append]

theorem byteSize_lt_append_iff : byteSize before < byteSize (before ++ w) ↔ w ≠ [] := by
  rw [byteSize_append]
  cases w with
  | nil => simp
  | cons c w =>
      have hc := c.utf8Size_pos
      rw [byteSize_cons]
      exact iff_of_true (by omega) (List.cons_ne_nil c w)

/-- Behind `before`, what is skipped is `w` and what it leads to is `t`: both for the reader and for the grammar,
in which whitespace is a rule and is written out in the other rules. -/
structure Skipped (before w t : List Char) : Prop where
  reader : skipBlank (before ++ (w ++ t)) (byteSize before) = byteSize (before ++ w)
  rule : (maybe (call .ws)).run Rule.run (w ++ t) = some (t, [])
  body : (maybe ws).run Rule.run (w ++ t) = some (t, [])
  required : (∃ u ns, Rule.ws.run (w ++ t) = some (u, ns)) ↔
    byteSize before < skipBlank (before ++ (w ++ t)) (byteSize before)
  whitespace : ∀ c r, t = c :: r → isWhitespace c = false
  comment : ¬ Blank.Commented t
  again : skipBlank (before ++ (w ++ t)) (byteSize (before ++ w)) = byteSize (before ++ w)

/-- At every place of an input the reader skips what optional whitespace takes, and it takes something exactly where
whitespace matches. What follows begins with neither whitespace nor a closed comment. -/
theorem blank_agrees (before s : List Char) : ∃ w t, s = w ++ t ∧ Skipped before w t := by
  obtain ⟨w, hw⟩ := Blank.skip_suffix s
  generalize ht : Blank.skip s = t at hw
  subst hw
  have hreader := skipBlank_append before ht
  have hsettled : Blank.Settled t := ht ▸ Blank.settled_skip (w ++ t)
  refine ⟨w, t, rfl, hreader, ?_, ?_, ?_, hsettled.whitespace, Blank.comment?_eq_none_iff.1 hsettled.comment, ?_⟩
  · rw [Blank.run_maybe_ws_rule, ht]
  · rw [Blank.run_maybe_ws, ht]
  · rw [hreader, byteSize_lt_append_iff, Blank.run_ws_rule]
    constructor
    · rintro ⟨u, ns, hu⟩ rfl
      exact (Blank.run_ws_eq_some.1 hu).1 hsettled
    · intro hne
      refine ⟨t, [], Blank.run_ws_eq_some.2 ⟨fun h => hne ?_, ht.symm, rfl⟩⟩
      exact List.append_left_eq_self.1 (h.skip_eq.symm.trans ht)
  · have hagain := skipBlank_append (w := []) (before ++ w) hsettled.skip_eq
    rwa [List.nil_append, List.append_nil, List.append_assoc] at hagain

end SelectorSyntax.Text.Reader
