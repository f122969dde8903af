import SelectorSyntax.Proofs.Spelling.Fragments

namespace SelectorSyntax.Selector.Spelling

open Grammar Expression Text OfNodes

/-- A name behind a dot is read as a class. -/
theorem parse_of_className {w n : List Char} (hw : Rule.ident.run w = some ([], [⟨.ident, w, [], []⟩]))
    (hn : Identifier.decode w = .ok n) (d : Nat) :
    parseSelectorList ('.' :: w) d = .ok [⟨⟨none, [.className (String.ofList n)], []⟩, []⟩] := by
  have hclass : Rule.classSelector.run ('.' :: w) =
      some ([], [⟨.classSelector, '.' :: w, [], [⟨.ident, w, [], []⟩]⟩]) :=
    (Rule.run_node rfl).2 ⟨_, run_seq_eq_some.2 ⟨w, [], _, run_exactly_cons '.', hw, rfl⟩, rfl⟩
  have hsimple : simpleSelector.run Rule.run ('.' :: w) =
      some ([], [⟨.classSelector, '.' :: w, [], [⟨.ident, w, [], []⟩]⟩]) := by
    refine run_choices_of [call .idSelector] ?_ hclass
    simp only [List.mem_singleton, forall_eq]
    exact run_begins_none rfl rfl _
  have htext : (⟨.ident, w, [], []⟩ : Node).text = w := by
    have h := Place.between_append w []
    rwa [List.append_nil] at h
  have hname : markedName ⟨.classSelector, '.' :: w, [], [⟨.ident, w, [], []⟩]⟩ = .ok (String.ofList n) := by
    change OfNodes.identifier ⟨.ident, w, [], []⟩ = _
    rw [OfNodes.identifier, htext, hn]
  exact parse_of_simple hsimple ((Adds.className rfl hname).addSimple rfl) (Nat.zero_le d)

end SelectorSyntax.Selector.Spelling

namespace SelectorSyntax

open Grammar Selector Text

/-- However a name is written, the identifier token matches all of it, its value is the name, and behind a dot it is
the class of that name. -/
theorem className_of_written {v : String} {w : List Char} (h : Identifier.Written Escape.endings v.toList w) :
    Rule.ident.run w = some ([], [⟨.ident, w, [], []⟩]) ∧
      Reader.decodeIdentifier w = .ok v.toList ∧
      ∀ d, parseSelectorList ('.' :: w) d = .ok [⟨⟨none, [.className v], []⟩, []⟩] := by
  have hread := h.read (List.Subset.refl _)
  have hrun := Identifier.run_ident_of_read hread
  refine ⟨hrun, Reader.decodeIdentifier_of_read hread, fun d => ?_⟩
  have hparse := Spelling.parse_of_className hrun (Identifier.decode_of_read hread) d
  rwa [String.ofList_toList] at hparse

/-- A carriage return with its line feed, a letter that is no digit, and six digits. -/
theorem className_of_written_codes : Identifier.Written Escape.endings "b-g1é".toList "\\62\r\n-\\g\\000031 é".toList ∧
    parseSelectorList ('.' :: "\\62\r\n-\\g\\000031 é".toList) 0 = .ok [⟨⟨none, [.className "b-g1é"], []⟩, []⟩] := by
  have hw : Identifier.Written Escape.endings "b-g1é".toList "\\62\r\n-\\g\\000031 é".toList :=
    .mk (x := "\\62\r\n".toList) (.code (s := "62".toList) (e := ['\r', '\n']) ⟨by decide, by decide, 0, rfl⟩ (by decide)) <|
    .cons (w := ['-']) (.itself rfl) <| .cons (w := ['\\', 'g']) (.escaped rfl rfl) <|
    .cons (w := "\\000031 ".toList) (.code (s := "000031".toList) (e := [' ']) ⟨by decide, by decide, 4, rfl⟩ (by decide)) <|
    .cons (w := ['é']) (.itself rfl) .nil
  exact ⟨hw, (className_of_written hw).2.2 0⟩

end SelectorSyntax
