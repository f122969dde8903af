import SelectorSyntax.Proofs.Diagnostic.Located

namespace SelectorSyntax

open Diagnostic Grammar Text Place SyntaxError

/-- A character starts at the offset, or the text ends there. -/
def IsBoundary (text : List Char) (offset : Nat) : Prop := ∃ s t, text = s ++ t ∧ byteSize s = offset

variable {s t : List Char} {c : Char} {n : Nat}

theorem isBoundary_append (s t : List Char) : IsBoundary (s ++ t) (byteSize s) := ⟨s, t, rfl, rfl⟩

/-- The last byte of a text is a character of its own if the last character has one byte. -/
theorem isBoundary_last (s : List Char) (c : Char) :
    IsBoundary (s ++ [c]) (byteSize (s ++ [c]) - 1) ↔ c.utf8Size = 1 := by
  have hpos := c.utf8Size_pos
  have hsize : byteSize (s ++ [c]) = byteSize s + c.utf8Size := by
    rw [byteSize_append, byteSize_cons, byteSize_nil, Nat.add_zero]
  rw [hsize]
  constructor
  · rintro ⟨u, v, huv, hu⟩
    rcases List.prefix_concat_iff.1 ⟨v, huv.symm⟩ with rfl | ⟨w, rfl⟩
    · rw [byteSize_append, byteSize_cons, byteSize_nil] at hu
      omega
    · rw [byteSize_append] at hu hsize
      omega
  · intro hc
    rw [hc, Nat.add_sub_cancel]
    exact isBoundary_append s [c]

/-- The label of an error ends where a character ends and has some width unless there is no text. It starts where
a character starts, except for an error at the end of a text that ends with a character of several bytes: there
it covers the last byte. -/
structure Labelled (input : String) (e : SyntaxError) : Prop where
  bounded : e.label.offset + e.label.length ≤ input.utf8ByteSize
  stop : IsBoundary input.toList (e.label.offset + e.label.length)
  width : input ≠ "" → 0 < e.label.length
  start : IsBoundary input.toList e.label.offset ↔
    ¬ (e.location.start.offset = input.utf8ByteSize ∧ ∃ s c, input.toList = s ++ [c] ∧ 1 < c.utf8Size)

/-- At the end of the text the label is on the byte before. -/
theorem labelled_end {input : String} {e : SyntaxError} {before : List Char} (hinput : input.toList = before)
    (ha : About before [] [] e) : Labelled input e := by
  have hsize := byteSize_toList input
  have hstart := ha.start.offset
  have hlabel := ha.label
  rw [Location.span, hstart, ha.stop.offset] at hlabel
  simp only [List.append_nil, Nat.sub_self, Nat.lt_irrefl, if_false, Nat.le_refl, true_and] at hlabel
  rw [hinput] at hsize
  rcases List.eq_nil_or_concat before with rfl | ⟨s, c, rfl⟩
  · rw [byteSize_nil, if_neg (Nat.lt_irrefl 0), Prod.mk.injEq] at hlabel
    obtain ⟨hoffset, hlength⟩ := hlabel
    refine ⟨by omega, ?_, fun hne => ?_, ?_⟩
    · rw [hoffset, hlength, hinput]
      exact isBoundary_append [] []
    · exact absurd (String.toList_eq_nil_iff.1 hinput) hne
    · rw [hoffset, hinput]
      refine iff_of_true (isBoundary_append [] []) ?_
      rintro ⟨-, s, c, hsc, -⟩
      exact List.cons_ne_nil c [] (List.append_eq_nil_iff.1 hsc.symm).2
  · rw [List.concat_eq_append] at hinput hsize hstart hlabel
    have hpos : 0 < byteSize (s ++ [c]) := byteSize_pos (by simp)
    rw [if_pos hpos, Prod.mk.injEq] at hlabel
    obtain ⟨hoffset, hlength⟩ := hlabel
    have hstop : e.label.offset + e.label.length = byteSize (s ++ [c]) := by omega
    refine ⟨by omega, ?_, fun _ => by omega, ?_⟩
    · rw [hstop, hinput]
      exact ⟨s ++ [c], [], by rw [List.append_nil], rfl⟩
    · have hc := c.utf8Size_pos
      rw [hoffset, hinput, isBoundary_last, hstart, ← hsize]
      constructor
      · rintro hone ⟨-, u, d, hud, hd⟩
        obtain ⟨-, hcd⟩ := List.append_inj' hud rfl
        cases hcd
        omega
      · intro hnot
        by_contra hone
        exact hnot ⟨rfl, s, c, rfl, by omega⟩

theorem labelled_part {input : String} {e : SyntaxError} {before part after : List Char} (hpart : part ≠ [])
    (hinput : input.toList = before ++ (part ++ after)) (ha : About before part after e) : Labelled input e := by
  have hsize : input.utf8ByteSize = byteSize before + (byteSize part + byteSize after) := by
    rw [← byteSize_toList, hinput, byteSize_append, byteSize_append]
  have hstart := ha.start.offset
  have hpos := byteSize_pos hpart
  have hlabel := ha.label
  rw [Location.span, hstart, ha.stop.offset, byteSize_append, Nat.add_sub_cancel_left, if_pos hpos,
    Prod.mk.injEq] at hlabel
  obtain ⟨hoffset, hlength⟩ := hlabel
  refine ⟨by omega, ?_, fun _ => by omega, ?_⟩
  · rw [hoffset, hlength, hinput, ← byteSize_append, ← List.append_assoc]
    exact isBoundary_append _ after
  · rw [hoffset, hinput]
    refine iff_of_true (isBoundary_append before _) ?_
    rintro ⟨hend, -⟩
    omega

theorem labelled_of_parse_error {input : String} {options : ParseOptions} {e : SyntaxError}
    (h : parseWith input options = .error e) : Labelled input e := by
  obtain ⟨before, part, after, hinput, ha⟩ := located_of_parseWith h
  by_cases hpart : part = []
  · have hafter := ha.ended hpart
    subst hpart hafter
    rw [List.append_nil, List.append_nil] at hinput
    exact labelled_end hinput ha
  · exact labelled_part hpart hinput ha

/-- A bracket that is one too many. -/
theorem labelled_of_parse_error_nested :
    ∃ e, parseWith "é[(" ⟨.text, 1⟩ = .error e ∧ Labelled "é[(" e := by
  have h : (parseWith "é[(" ⟨.text, 1⟩).mapError SyntaxError.location = .error ⟨⟨3, 1, 3⟩, ⟨4, 1, 4⟩⟩ := by cbv
  cases he : parseWith "é[(" ⟨.text, 1⟩ with
  | ok l =>
      rw [he] at h
      cases h
  | error e => exact ⟨e, rfl, labelled_of_parse_error he⟩

/-- Behind a last character of two bytes the label starts inside it. -/
theorem label_splits_last_character : ∃ e, parseWith "[é" {} = .error e ∧ e.label.offset = 2 ∧ e.label.length = 1 ∧
    ¬ IsBoundary "[é".toList e.label.offset := by
  have hs : Bracket.scan "[é".toList 32 = .ok ⟨[(0, '[')], []⟩ := by cbv
  have hrun : Rule.selectors.run "[é".toList = none := by rfl
  have hplace : (Rule.selectors.failure "[é".toList).place = [] := by decide +kernel
  have hparse : parseWith "[é" {} = .error (ofAttempts "[é".toList (offsetOf "[é".toList [])
      (Rule.selectors.failure "[é".toList).positives (Rule.selectors.failure "[é".toList).negatives
      ⟨[(0, '[')], []⟩) := by
    rw [← hplace]
    simp only [parseWith, parseSelectorList, defaultMaxDepth, matchRoot_of_none hs hrun]
    rfl
  refine ⟨_, hparse, rfl, rfl, ?_⟩
  have hlast := isBoundary_last ['['] 'é'
  exact fun h => absurd (hlast.1 h) (by decide)

end SelectorSyntax
