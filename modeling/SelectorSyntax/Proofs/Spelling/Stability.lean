import SelectorSyntax.Proofs.Spelling.Emitted

namespace SelectorSyntax.Selector.Spelling

open Grammar Expression Text CharClass Quoted

/-! Only a whitespace stands for a space where the text is no longer than its leaves. -/

variable {r : Rule} {c q : Char} {b s t u v w : List Char} {ls ks : List String} {ns : List Node}

theorem OpenEnd.two (h : OpenEnd w) : 1 < w.length := by
  cases h with
  | @digits ds hne =>
      rw [List.length_cons]
      exact Nat.succ_lt_succ (List.length_pos_iff.2 hne)
  | escaped h => exact Nat.succ_lt_succ (Nat.succ_pos _)
  | other _ h =>
      obtain ⟨x, d, rfl, -⟩ := h.last
      rw [List.length_cons, List.length_append]
      exact Nat.succ_lt_succ (Nat.lt_of_lt_of_le (Nat.succ_pos _) (Nat.le_add_left _ _))

theorem quoted_ends (h : Rule.string.run (w ++ t) = some (t, ns)) : ∃ x q, w = x ++ [q] ∧ isQuote q = true := by
  obtain ⟨q, v, hq, hs, hi, -⟩ := run_string_eq_some.1 h
  obtain ⟨x, rfl⟩ := hi.suffix fun h => run_suffix Rule.lawful_run (quotedPiece q) h
  refine ⟨q :: x, q, ?_, hq⟩
  rw [← List.singleton_append (l := t), ← List.append_assoc, ← List.cons_append] at hs
  exact List.append_cancel_right hs

/-- No token ends in an open escape before a whitespace: the escape would have taken it. -/
theorem Tokenizes.not_openEnd (h : Tokenizes r (w ++ c :: s) (c :: s)) (hc : isWhitespace c = true) : ¬ OpenEnd w := by
  intro ho
  have hrun := h.run
  rcases h.cases with rfl | rfl | rfl | rfl
  · obtain ⟨x, q, rfl, hq⟩ := quoted_ends hrun
    obtain ⟨y, d, hxy, hd⟩ := ho.last
    obtain ⟨-, hqd⟩ := List.append_inj' hxy rfl
    obtain rfl := (List.cons.inj hqd).1
    rcases isQuote_cases hq with rfl | rfl <;> cases hd
  · obtain ⟨u, hu, hi, -⟩ := run_number_eq_some.1 hrun
    obtain ⟨v, rfl⟩ := hi.suffix fun h => run_suffix Rule.lawful_run nmchar h
    have hbarrier := mem_barriers_of_blanks (s := s) (.whitespace hc .nil) (List.cons_ne_nil c [])
    have hm : Mirrors (c :: s) [' '] := .barrier hbarrier (by simp [barriers]) (by simp) (by simp) fun _ => rfl
    obtain ⟨x, -, hx, -, hxb, -⟩ := (alike_magnitude (hm.number hrun)).1 hu
    rw [← List.append_assoc] at hx
    obtain rfl := List.append_cancel_right hx
    exact (ho.strip hxb).not_nmchars hc hi
  · exact ho.not_nmchars hc (nmchars_of_ident hrun)
  · obtain ⟨d, -, hs, -⟩ := run_argDelim_eq_some.1 hrun
    obtain rfl : w = [d] := (List.append_left_inj (c :: s)).1 hs
    exact absurd ho.two (Nat.lt_irrefl _)

theorem emitted_cons {x : String} : (emitted (x :: ls)).length = x.toList.length + (emitted ls).length := by
  rw [emitted, List.flatMap_cons, List.length_append, emitted]

theorem Spread.length_le (h : Spread ls s t) : (emitted ls).length + t.length ≤ s.length := by
  induction h with
  | nil => exact Nat.le_of_eq (Nat.zero_add _)
  | @gap b ls s t _ hne _ ih =>
      have hpos := List.length_pos_iff.2 hne
      have hspace : " ".toList.length = 1 := rfl
      rw [emitted_cons, hspace, List.length_append]
      omega
  | opener _ _ _ ih =>
      rw [emitted_cons, String.toList_ofList, List.length_singleton, List.length_cons, List.length_append]
      omega
  | closer _ _ _ ih =>
      rw [emitted_cons, String.toList_ofList, List.length_singleton, List.length_append, List.length_cons]
      omega
  | token _ _ ih =>
      rw [emitted_cons, String.toList_ofList, List.length_append]
      omega

theorem eq_of_ofList {x : String} (h : x = String.ofList w) : w = x.toList := by
  rw [h, String.toList_ofList]

/-- A space in a text that is no longer than its leaves stands for one whitespace. -/
theorem Spread.whitespace (h : Spread (" " :: ls) s t) (hl : s.length ≤ (emitted (" " :: ls)).length + t.length) :
    ∃ c r, s = c :: r ∧ isWhitespace c = true := by
  have hspace : " ".toList.length = 1 := rfl
  rw [emitted_cons, hspace] at hl
  generalize hx : " " :: ls = ks at h
  cases h with
  | nil => cases hx
  | @gap b _ s _ hb hne h =>
      obtain rfl := (List.cons.inj hx).2
      have hlen := h.length_le
      rw [List.length_append] at hl
      cases hb with
      | nil => exact absurd rfl hne
      | @whitespace c b hc => exact ⟨c, b ++ s, rfl, hc⟩
      | comment =>
          simp only [List.length_cons, List.length_append] at hl
          omega
  | opener ho =>
      obtain rfl := (List.cons.inj (eq_of_ofList (List.cons.inj hx).1)).1
      exact absurd ho (by decide)
  | closer hc =>
      obtain rfl := (List.cons.inj (eq_of_ofList (List.cons.inj hx).1)).1
      exact absurd hc (by decide)
  | @token r w _ s =>
      obtain rfl := eq_of_ofList (List.cons.inj hx).1
      exact ⟨' ', s, rfl, rfl⟩

theorem Parted.cons (h : Parted ls) (hw : (∃ ks, ls = " " :: ks) → ¬ OpenEnd w) : Parted (String.ofList w :: ls) := by
  intro v hv hi
  rcases List.infix_cons_iff.1 hi with ⟨ks, hks⟩ | hi
  · obtain ⟨hx, hls⟩ := List.cons.inj hks
    obtain rfl : v = w := String.ofList_injective hx
    exact hw ⟨ks, hls.symm⟩ hv
  · exact h v hv hi

theorem Parted.char (h : Parted ls) : Parted (String.ofList [c] :: ls) :=
  h.cons fun _ hc => absurd hc.two (Nat.lt_irrefl _)

/-- A text that is no longer than its leaves has no open escape before a space. -/
theorem Spread.parted (h : Spread ls s t) (hl : s.length ≤ (emitted ls).length + t.length) : Parted ls := by
  induction h with
  | nil => exact fun w _ hi => absurd hi.length_le (Nat.not_succ_le_zero 1)
  | @gap b ls s t _ hne h ih =>
      have hpos := List.length_pos_iff.2 hne
      have hspace : " ".toList.length = 1 := rfl
      rw [emitted_cons, hspace, List.length_append] at hl
      exact (ih (by omega)).char
  | opener _ _ _ ih =>
      rw [emitted_cons, String.toList_ofList, List.length_singleton, List.length_cons, List.length_append] at hl
      exact (ih (by omega)).char
  | closer _ _ _ ih =>
      rw [emitted_cons, String.toList_ofList, List.length_singleton, List.length_append, List.length_cons] at hl
      exact (ih (by omega)).char
  | @token r w ls s t hr h ih =>
      rw [emitted_cons, String.toList_ofList, List.length_append] at hl
      have hl : s.length ≤ (emitted ls).length + t.length := by omega
      refine (ih hl).cons ?_
      rintro ⟨ks, rfl⟩
      obtain ⟨c, r, rfl, hc⟩ := h.whitespace hl
      exact hr.not_openEnd hc

theorem parted_of_parse {d : Nat} {v : Parameter} (h : parseTextFragment (emitted v.leaves) d = .ok v) :
    Parted v.leaves := by
  obtain ⟨ps, hps, rfl⟩ := itemsOf_parse h
  obtain ⟨b₁, s, b₂, -, -, hs, hitems⟩ := itemsAt_of_itemsOf hps
  have hl : s.length ≤ (emitted (Parameter.list ps).leaves).length := by
    rw [hs, List.length_append]
    exact Nat.le_add_left _ _
  exact hitems.spread.parted (Nat.le_trans hl (Nat.le_add_right _ _))

end SelectorSyntax.Selector.Spelling

namespace SelectorSyntax

open Selector Selector.Spelling

/-- The leaves of a text one after another are read as the text is, unless a space behind one of them would end an
escape in it. -/
theorem parseTextFragment_emitted_iff {t : List Char} {d : Nat} {v : Parameter} (h : parseTextFragment t d = .ok v) :
    parseTextFragment (emitted v.leaves) d = .ok v ↔ Parted v.leaves :=
  ⟨parted_of_parse, parse_emitted h⟩

/-- A comment in the text, and in the leaves the space that stands for it. -/
theorem parseTextFragment_emitted_comment :
    parseTextFragment "a/**/[ 1 ]".toList 1 =
        .ok (.list [.text "a", .text " ", .list [.text "[", .text "1", .text "]"]]) ∧
      (parseTextFragment (emitted ["a", " ", "[", "1", "]"]) 1 =
          .ok (.list [.text "a", .text " ", .list [.text "[", .text "1", .text "]"]]) ↔
        Parted ["a", " ", "[", "1", "]"]) := by
  have h : parseTextFragment "a/**/[ 1 ]".toList 1 =
      .ok (.list [.text "a", .text " ", .list [.text "[", .text "1", .text "]"]]) := by cbv
  exact ⟨h, parseTextFragment_emitted_iff h⟩

/-- Behind the escape a comment stands for itself, and the space in its place ends the escape. -/
theorem parseTextFragment_emitted_escape :
    parseTextFragment "\\41/**/b".toList defaultMaxDepth = .ok (.list [.text "\\41", .text " ", .text "b"]) ∧
      parseTextFragment (emitted (Parameter.list [.text "\\41", .text " ", .text "b"]).leaves) defaultMaxDepth ≠
        .ok (.list [.text "\\41", .text " ", .text "b"]) := by
  have hjoined : parseTextFragment (emitted (Parameter.list [.text "\\41", .text " ", .text "b"]).leaves)
      defaultMaxDepth = .ok (.list [.text "\\41 b"]) := by cbv
  refine ⟨by cbv, fun h => ?_⟩
  rw [hjoined] at h
  simp at h

end SelectorSyntax
