import SelectorSyntax.Proofs.Tokens.Identifier
import SelectorSyntax.Proofs.Tokens.StringAgreement

namespace SelectorSyntax.Text.Identifier

open Grammar Expression CharClass

variable {s t v w : List Char} {ns : List Node}

/-- Where the grammar has no character of a name, the reader has none either, or it is at a backslash
that starts no escape. -/
theorem readTail_of_run_none (h : nmchar.run Rule.run s = none) : readTail s = .ok ([], s) ∨
    ∃ r, s = '\\' :: r ∧ Escape.read r = none ∧ readTail s = .error (.badEscape s) := by
  cases s with
  | nil => exact Or.inl readTail_nil
  | cons c r =>
      rcases (run_letter_eq_none run_nmchar_cons).1 h with ⟨rfl, hr⟩ | ⟨hb, hc⟩
      · exact Or.inr ⟨r, rfl, hr, by rw [readTail, if_pos rfl, hr]⟩
      · exact Or.inl (by rw [readTail, if_neg hb, if_neg hc])

theorem readHead_of_run_none (whole : List Char) (h : nmstart.run Rule.run s = none) :
    readHead whole s = .error (.missing whole) ∨
      ∃ r, s = '\\' :: r ∧ Escape.read r = none ∧ readHead whole s = .error (.badEscape s) := by
  cases s with
  | nil => exact Or.inl rfl
  | cons c r =>
      rcases (run_letter_eq_none run_nmstart_cons).1 h with ⟨rfl, hr⟩ | ⟨hb, hc⟩
      · exact Or.inr ⟨r, rfl, hr, by rw [readHead, if_pos rfl, hr]⟩
      · exact Or.inl (by rw [readHead, if_neg hb, if_neg hc])

theorem not_head (h : Rule.ident.run s = none) (t : List Char) : ¬ Head s t := by
  intro ht
  obtain ⟨u, ms, hi⟩ := exists_iterates Rule.lawful_run (e := nmchar) rfl t
  have hms : ms = [] := run_callFree (e := star nmchar) rfl ((run_star_eq_some Rule.lawful_run rfl).2 hi)
  have hrun := run_ident_eq_some.2 ⟨t, ht, hms ▸ hi, rfl⟩
  rw [h] at hrun
  cases hrun

theorem run_nmstart_none (h : ∀ t, nmstart.run Rule.run s ≠ some (t, [])) : nmstart.run Rule.run s = none := by
  cases hr : nmstart.run Rule.run s with
  | none => rfl
  | some x =>
      obtain ⟨t, ns⟩ := x
      obtain rfl : ns = [] := run_callFree rfl hr
      exact absurd hr (h t)

/-- Without an identifier the reader refuses the place, or a backslash at it or behind a dash. -/
theorem read_of_run_none (h : Rule.ident.run s = none) : read s = .error (.missing s) ∨
    ∃ w r, (w = [] ∨ w = ['-']) ∧ s = w ++ '\\' :: r ∧ Escape.read r = none ∧
      read s = .error (.badEscape ('\\' :: r)) := by
  have hs := not_head h
  by_cases hd : s.head? = some '-'
  · obtain ⟨r, rfl⟩ : ∃ r, s = '-' :: r := by simpa [List.head?_eq_some_iff] using hd
    -- Two dashes would be an identifier already.
    have hr : r.head? ≠ some '-' := by
      intro hr
      obtain ⟨u, rfl⟩ : ∃ u, r = '-' :: u := by simpa [List.head?_eq_some_iff] using hr
      exact hs u .dashes
    have hn := run_nmstart_none fun t ht => hs t (.dash ht)
    rcases readHead_of_run_none ('-' :: r) hn with he | ⟨u, rfl, hu, he⟩
    · exact Or.inl (by rw [read_dash hr, he]; rfl)
    · exact Or.inr ⟨['-'], u, Or.inr rfl, rfl, hu, by rw [read_dash hr, he]; rfl⟩
  · have hn := run_nmstart_none fun t ht => hs t (.start ht)
    rcases readHead_of_run_none s hn with he | ⟨u, hsu, hu, he⟩
    · exact Or.inl ((read_start hd).trans he)
    · exact Or.inr ⟨[], u, Or.inl rfl, hsu, hu, by rw [read_start hd, he, hsu]⟩

/-- Behind an identifier the reader is done, or it is at a backslash that starts no escape. -/
theorem readTail_of_run (h : Rule.ident.run s = some (t, ns)) : readTail t = .ok ([], t) ∨
    ∃ r, t = '\\' :: r ∧ Escape.read r = none ∧ readTail t = .error (.badEscape t) := by
  obtain ⟨u, -, hi, -⟩ := run_ident_eq_some.1 h
  exact readTail_of_run_none hi.done

theorem run_ident_node (h : Rule.ident.run s = some (t, ns)) : ns = [⟨.ident, s, t, []⟩] := by
  obtain ⟨-, -, -, hns⟩ := run_ident_eq_some.1 h
  exact hns

/-- What the reader takes for an identifier is one. -/
theorem run_ident_of_read (h : read s = .ok (v, t)) : Rule.ident.run s = some (t, [⟨.ident, s, t, []⟩]) := by
  cases hrun : Rule.ident.run s with
  | none =>
      rcases read_of_run_none hrun with he | ⟨w, r, -, -, -, he⟩ <;> rw [he] at h <;> cases h
  | some x =>
      obtain ⟨u, ns⟩ := x
      obtain ⟨w, hw⟩ := Rule.lawful_run.suffix hrun
      obtain ⟨v', -, hr⟩ := read_of_run hrun hw.symm
      obtain ⟨x, hx, -⟩ := prepend_eq_ok.1 (hr ▸ h)
      rcases readTail_of_run hrun with he | ⟨r, -, -, he⟩
      · rw [he] at hx
        cases hx
        rw [run_ident_node hrun]
      · rw [he] at hx
        cases hx

end SelectorSyntax.Text.Identifier

namespace SelectorSyntax.Text.Reader

open Grammar Place

variable {before s t v w : List Char}

theorem advance_append (before w t : List Char) : advance (byteSize before) (w ++ t) t = byteSize (before ++ w) := by
  rw [advance, offsetOf_append, byteSize_append]

theorem identifier?_append (before s : List Char) : identifier? (before ++ s) (byteSize before) =
    some (match Identifier.read s with
      | .error e => .error (.ofIdentifier s (byteSize before) e)
      | .ok (v, t) => .ok (v, advance (byteSize before) s t)) := by
  rw [identifier?, dropBytes?_append]
  rfl

theorem identifier?_of_ok (h : Identifier.read (w ++ t) = .ok (v, t)) :
    identifier? (before ++ (w ++ t)) (byteSize before) = some (.ok (v, byteSize (before ++ w))) := by
  rw [identifier?_append, h]
  exact congrArg (fun e => some (Except.ok (v, e))) (advance_append before w t)

theorem identifier?_of_missing (h : Identifier.read s = .error (.missing s)) :
    identifier? (before ++ s) (byteSize before) = some (.error (.expectedIdentifier (byteSize before))) := by
  have ho := advance_append before [] s
  rw [List.append_nil] at ho
  rw [identifier?_append, h]
  exact congrArg (fun e => some (Except.error (LexicalError.expectedIdentifier e))) ho

theorem identifier?_of_badEscape (h : Identifier.read (w ++ t) = .error (.badEscape t)) :
    identifier? (before ++ (w ++ t)) (byteSize before) = some (.error (.invalidEscape (byteSize (before ++ w)))) := by
  rw [identifier?_append, h]
  exact congrArg (fun e => some (Except.error (LexicalError.invalidEscape e))) (advance_append before w t)

theorem decodeIdentifier_of_read (h : Identifier.read w = .ok (v, [])) : decodeIdentifier w = .ok v := by
  rw [decodeIdentifier, Identifier.decode_of_read h]
  rfl

theorem isValidEscape_of_read_none (h : Escape.read t = none) :
    isValidEscape (before ++ (w ++ '\\' :: t)) (byteSize (before ++ w)) = false := by
  rw [isValidEscape, ← List.append_assoc, restAt_append, Bool.eq_false_iff]
  intro hv
  obtain ⟨d, u, hd⟩ := Escape.exists_read hv
  rw [h] at hd
  cases hd

/-- What an answer of the reader of identifiers at `s`, behind `before`, says of the identifier there. -/
inductive Identified (before s : List Char) : Answer (List Char) → Prop
  | whole {w t v : List Char} : s = w ++ t → Rule.ident.run s = some (t, [⟨.ident, s, t, []⟩]) →
      decodeIdentifier w = .ok v → Identified before s (.ok (v, byteSize (before ++ w)))
  | missing : Rule.ident.run s = none → Identified before s (.error (.expectedIdentifier (byteSize before)))
  | unstarted {w t : List Char} : s = w ++ '\\' :: t → w = [] ∨ w = ['-'] →
      isValidEscape (before ++ s) (byteSize (before ++ w)) = false → Rule.ident.run s = none →
      Identified before s (.error (.invalidEscape (byteSize (before ++ w))))
  | stopped {w t v : List Char} : s = w ++ '\\' :: t →
      isValidEscape (before ++ s) (byteSize (before ++ w)) = false →
      Rule.ident.run s = some ('\\' :: t, [⟨.ident, s, '\\' :: t, []⟩]) → decodeIdentifier w = .ok v →
      Identified before s (.error (.invalidEscape (byteSize (before ++ w))))

/-- At every place of an input the identifier token and the reader of identifiers agree: the reader fails
behind a whole token only at a backslash that starts no escape. -/
theorem identifier_agrees (before s : List Char) :
    ∃ answer, identifier? (before ++ s) (byteSize before) = some answer ∧ Identified before s answer := by
  cases hrun : Rule.ident.run s with
  | none =>
      rcases Identifier.read_of_run_none hrun with hread | ⟨w, t, hw, rfl, ht, hread⟩
      · exact ⟨_, identifier?_of_missing hread, .missing hrun⟩
      · exact ⟨_, identifier?_of_badEscape hread, .unstarted rfl hw (isValidEscape_of_read_none ht) hrun⟩
  | some x =>
      obtain ⟨t, ns⟩ := x
      obtain ⟨w, rfl⟩ := Rule.lawful_run.suffix hrun
      obtain rfl := Identifier.run_ident_node hrun
      obtain ⟨v, hw, hread⟩ := Identifier.read_of_run hrun rfl
      have hdecode := decodeIdentifier_of_read hw
      rcases Identifier.readTail_of_run hrun with htail | ⟨r, rfl, hr, htail⟩
      · have hok : Identifier.read (w ++ t) = .ok (v, t) := by
          rw [hread, htail]
          exact congrArg (fun v => Except.ok (v, t)) (List.append_nil v)
        exact ⟨_, identifier?_of_ok hok, .whole rfl hrun hdecode⟩
      · rw [htail] at hread
        exact ⟨_, identifier?_of_badEscape hread, .stopped rfl (isValidEscape_of_read_none hr) hrun hdecode⟩

end SelectorSyntax.Text.Reader
