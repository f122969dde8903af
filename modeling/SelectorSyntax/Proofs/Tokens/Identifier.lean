import SelectorSyntax.Proofs.Tokens.Quoted
import SelectorSyntax.Text.Identifier

namespace SelectorSyntax.Text.Identifier

open Grammar Expression CharClass

variable {rules : Rule → Matcher} {c : Char} {s t u v w : List Char} {ns ns' : List Node}

/-! The escape of the grammar is the one that is read. -/

theorem run_upTo_char (p : Char → Bool) (n : Nat) (s : List Char) :
    (upTo n (char p)).run rules s = some (s.drop ((s.takeWhile p).take n).length, []) := by
  induction n generalizing s with
  | zero => simp [upTo, run_empty]
  | succ n ih =>
      cases s with
      | nil => rfl
      | cons c s =>
          rw [upTo]
          by_cases hc : p c = true
          · have hs : (char p).run rules (c :: s) = some (s, []) := by rw [run_char_cons, if_pos hc]
            refine run_maybe_eq_some.2 (Or.inl ?_)
            rw [run_seq_of_run hs, ih]
            simp [hc]
          · refine run_maybe_eq_some.2 (Or.inr ⟨run_seq_eq_none.2 (Or.inl ?_), ?_, rfl⟩)
            · rw [run_char_cons, if_neg hc]
            · simp [hc]

theorem run_terminator (s : List Char) :
    (maybe (choice (literal "\r\n") wsChar)).run rules s = some (Escape.dropTerminator s, []) := by
  unfold Escape.dropTerminator
  split
  next s => exact run_maybe_eq_some.2 (Or.inl (run_choice_eq_some.2 (Or.inl (run_literal_eq_some.2 ⟨rfl, rfl⟩))))
  next c s hcs =>
    have hl : (literal "\r\n").run rules (c :: s) = none := by
      rw [run_literal_eq_none]
      rintro ⟨v, hv⟩
      exact hcs v (List.cons.inj hv).1.symm (List.cons.inj hv).2.symm
    split
    next hc =>
      refine run_maybe_eq_some.2 (Or.inl (run_choice_eq_some.2 (Or.inr ⟨hl, ?_⟩)))
      rw [wsChar, run_char_cons, if_pos hc]
    next hc =>
      refine run_maybe_eq_some.2 (Or.inr ⟨run_choice_eq_none.2 ⟨hl, ?_⟩, rfl, rfl⟩)
      rw [wsChar, run_char_cons, if_neg hc]
  next => rfl

theorem run_escape_cons (s : List Char) :
    escape.run rules ('\\' :: s) = (Escape.read s).map fun x => (x.2, []) := by
  rw [escape, run_seq_of_run (run_exactly_cons _)]
  cases s with
  | nil => rfl
  | cons c s =>
      have hother : (butNot newline).run rules (c :: s) = if isNewline c then none else some (s, []) := by
        split
        next hc =>
          refine run_seq_eq_none.2 (Or.inl (run_absent_eq_none.2 ⟨(s, []), ?_⟩))
          rw [newline, oneOf, run_char_cons, if_pos]
          simpa [isNewline, or_assoc] using hc
        next hc =>
          refine run_butNot_eq_some.2 ⟨run_newline_eq_none.2 fun d r hd => ?_, ⟨c, rfl⟩, rfl⟩
          cases hd
          simpa using hc
      by_cases hc : isHexDigit c = true
      · have hn := Escape.isNewline_of_hex hc
        have hs : (char isHexDigit).run rules (c :: s) = some (s, []) := by rw [run_char_cons, if_pos hc]
        rw [Escape.read, if_neg (by simp [hn]), if_pos hc]
        refine run_choice_eq_some.2 (Or.inl ?_)
        rw [seqs_cons_cons, run_seq_of_run hs, seqs_cons_cons, run_seq_of_run (run_upTo_char _ _ _), seqs_singleton,
          run_terminator]
        simp [hc, Escape.maxDigits]
      · have hs : (char isHexDigit).run rules (c :: s) = none := by rw [run_char_cons, if_neg hc]
        rw [run_choice, seqs_cons_cons, run_seq_eq_none.2 (Or.inl hs)]
        simp only [hother]
        by_cases hn : isNewline c = true
        · rw [if_pos hn, Escape.read, if_pos hn]
          rfl
        · rw [if_neg hn, Escape.read, if_neg hn, if_neg hc]
          rfl

theorem run_escape_eq_none (hc : c ≠ '\\') : escape.run rules (c :: s) = none :=
  run_seq_eq_none.2 (Or.inl (run_exactly_eq_none.2 (by simpa using hc)))

theorem run_nonAscii_cons (c : Char) (s : List Char) :
    nonAscii.run rules (c :: s) = if isAscii c then none else some (s, []) := by
  split
  next hc =>
    refine run_seq_eq_none.2 (Or.inl (run_absent_eq_none.2 ⟨(s, []), ?_⟩))
    rw [run_char_cons, if_pos hc]
  next hc =>
    refine run_butNot_eq_some.2 ⟨?_, ⟨c, rfl⟩, rfl⟩
    rw [run_char_cons, if_neg hc]

theorem run_choice_ite {p : Bool} {x : List Char × List Node} {y : Outcome} {e f : Expression}
    (he : e.run rules s = if p then some x else none) (hf : f.run rules s = y) :
    (choice e f).run rules s = if p then some x else y := by
  rw [run_choice, he]
  cases p with
  | false => exact hf
  | true => rfl

theorem run_exactly_ite (d c : Char) (s : List Char) :
    (exactly d).run rules (c :: s) = if decide (c = d) then some (s, []) else none := rfl

theorem run_nonAscii_ite (c : Char) (s : List Char) :
    nonAscii.run rules (c :: s) = if !isAscii c then some (s, []) else none := by
  rw [run_nonAscii_cons]
  cases isAscii c <;> rfl

theorem run_nmstart_cons (c : Char) (s : List Char) : nmstart.run rules (c :: s) =
    if c = '\\' then (Escape.read s).map fun x => (x.2, []) else if isIdentStart c then some (s, []) else none := by
  have hrun : nmstart.run rules (c :: s) = if isIdentStart c then some (s, []) else escape.run rules (c :: s) := by
    refine (run_choice_ite (run_char_cons _ c) (run_choice_ite (run_exactly_ite _ c s)
      (run_choice_ite (run_nonAscii_ite c s) rfl))).trans ?_
    rw [isIdentStart]
    cases c.isAlpha <;> cases decide (c = '_') <;> cases isAscii c <;> rfl
  rw [hrun]
  by_cases hb : c = '\\'
  · subst hb
    rw [if_neg (by decide), if_pos rfl, run_escape_cons]
  · rw [if_neg hb, run_escape_eq_none hb]

theorem run_nmchar_cons (c : Char) (s : List Char) : nmchar.run rules (c :: s) =
    if c = '\\' then (Escape.read s).map fun x => (x.2, []) else if isIdentChar c then some (s, []) else none := by
  have hrun : nmchar.run rules (c :: s) = if isIdentChar c then some (s, []) else escape.run rules (c :: s) := by
    refine (run_choice_ite (run_char_cons _ c) (run_choice_ite (run_exactly_ite _ c s)
      (run_choice_ite (run_exactly_ite _ c s) (run_choice_ite (run_nonAscii_ite c s) rfl)))).trans ?_
    rw [isIdentChar, isIdentStart, Char.isAlphanum]
    cases c.isAlpha <;> cases c.isDigit <;> cases decide (c = '_') <;> cases decide (c = '-') <;>
      cases isAscii c <;> rfl
  rw [hrun]
  by_cases hb : c = '\\'
  · subst hb
    rw [if_neg (by decide), if_pos rfl, run_escape_cons]
  · rw [if_neg hb, run_escape_eq_none hb]

theorem readTail_nil : readTail [] = .ok ([], []) := by rw [readTail]

theorem readTail_escape {d : Char} (h : Escape.read s = some (d, t)) :
    readTail ('\\' :: s) = (readTail t).prepend [d] := by
  rw [readTail, if_pos rfl, h]

theorem readTail_char (hc : isIdentChar c = true) : readTail (c :: s) = (readTail s).prepend [c] := by
  have hb : c ≠ '\\' := by
    rintro rfl
    cases hc
  rw [readTail, if_neg hb, if_pos hc]

theorem prepend_eq_ok {x : Reading} : x.prepend u = .ok (v, t) ↔ ∃ w, x = .ok (w, t) ∧ v = u ++ w := by
  cases x with
  | error e =>
      constructor
      · intro h
        cases h
      · rintro ⟨w, h, -⟩
        cases h
  | ok x =>
      obtain ⟨w, r⟩ := x
      constructor
      · intro h
        cases h
        exact ⟨w, rfl, rfl⟩
      · rintro ⟨w, h, rfl⟩
        cases h
        rfl

theorem run_nmchar_nil : nmchar.run rules [] = none := by
  rw [nmchar, run_choices_eq_none]
  intro e he
  simp only [List.mem_cons, List.not_mem_nil, or_false] at he
  rcases he with rfl | rfl | rfl | rfl | rfl <;> rfl

theorem run_nmstart_nil : nmstart.run rules [] = none := by
  rw [nmstart, run_choices_eq_none]
  intro e he
  simp only [List.mem_cons, List.not_mem_nil, or_false] at he
  rcases he with rfl | rfl | rfl | rfl <;> rfl

/-- A character of a name is an escape or one of a class of characters that stand for themselves. -/
theorem run_letter_eq_some {e : Expression} {p : Char → Bool} (hnil : e.run rules [] = none)
    (hcons : ∀ c s, e.run rules (c :: s) =
      if c = '\\' then (Escape.read s).map fun x => (x.2, []) else if p c then some (s, []) else none)
    (hp : p '\\' = false) : e.run rules s = some (t, ns) ↔
      ((∃ d r, s = '\\' :: r ∧ Escape.read r = some (d, t)) ∨ ∃ c, p c = true ∧ s = c :: t) ∧ ns = [] := by
  cases s with
  | nil => simp [hnil]
  | cons c s =>
      rw [hcons]
      by_cases hb : c = '\\'
      · subst hb
        rw [if_pos rfl, Option.map_eq_some_iff]
        constructor
        · rintro ⟨⟨d, u⟩, hd, h⟩
          cases h
          exact ⟨Or.inl ⟨d, s, rfl, hd⟩, rfl⟩
        · rintro ⟨⟨d, r, h, hd⟩ | ⟨c, hc, h⟩, rfl⟩
          · cases h
            exact ⟨(d, t), hd, rfl⟩
          · cases h
            rw [hp] at hc
            cases hc
      · rw [if_neg hb]
        constructor
        · intro h
          split at h
          next hc =>
            cases h
            exact ⟨Or.inr ⟨c, hc, rfl⟩, rfl⟩
          next => cases h
        · rintro ⟨⟨d, r, h, -⟩ | ⟨d, hd, h⟩, rfl⟩
          · cases h
            exact absurd rfl hb
          · cases h
            rw [if_pos hd]

theorem run_letter_eq_none {e : Expression} {p : Char → Bool}
    (hcons : ∀ c s, e.run rules (c :: s) =
      if c = '\\' then (Escape.read s).map fun x => (x.2, []) else if p c then some (s, []) else none) :
    e.run rules (c :: s) = none ↔ c = '\\' ∧ Escape.read s = none ∨ c ≠ '\\' ∧ ¬ p c = true := by
  rw [hcons]
  by_cases hb : c = '\\' <;> simp [hb]

theorem run_nmchar_eq_some : nmchar.run rules s = some (t, ns) ↔
    ((∃ d r, s = '\\' :: r ∧ Escape.read r = some (d, t)) ∨ ∃ c, isIdentChar c = true ∧ s = c :: t) ∧ ns = [] :=
  run_letter_eq_some run_nmchar_nil run_nmchar_cons (by decide)

theorem run_nmstart_eq_some : nmstart.run rules s = some (t, ns) ↔
    ((∃ d r, s = '\\' :: r ∧ Escape.read r = some (d, t)) ∨ ∃ c, isIdentStart c = true ∧ s = c :: t) ∧ ns = [] :=
  run_letter_eq_some run_nmstart_nil run_nmstart_cons (by decide)

theorem prepend_nil (x : Reading) : x.prepend [] = x := by
  cases x <;> rfl

theorem prepend_prepend (x : Reading) : (x.prepend v).prepend u = x.prepend (u ++ v) := by
  cases x with
  | error e => rfl
  | ok x => exact congrArg (fun w => Except.ok (w, x.2)) (List.append_assoc u v x.1).symm

/-- The characters of a name from one place to another, all that there are, whatever is read behind them. -/
theorem exists_readTail (h : Iterates (nmchar.run Rule.run) s t ns) (hs : s = w ++ t) :
    ∃ v, readTail w = .ok (v, []) ∧ readTail s = (readTail t).prepend v := by
  induction h generalizing w with
  | stop =>
      obtain rfl : w = [] := List.append_left_eq_self.1 hs.symm
      exact ⟨[], readTail_nil, (prepend_nil _).symm⟩
  | @next s u t ns ms hs' hi ih =>
      obtain ⟨x, rfl⟩ : t <:+ u := hi.suffix (fun h => run_suffix Rule.lawful_run nmchar h)
      obtain ⟨v, hv, hr⟩ := ih rfl
      rcases (run_nmchar_eq_some.1 hs').1 with ⟨d, r, rfl, hd⟩ | ⟨c, hc, rfl⟩
      · refine ⟨d :: v, ?_, by rw [readTail_escape hd, hr, prepend_prepend, List.singleton_append]⟩
        obtain ⟨y, hy⟩ := Escape.read_suffix hd
        obtain rfl : w = '\\' :: (y ++ x) := by
          rw [← hy, ← List.append_assoc, ← List.cons_append] at hs
          exact (List.append_cancel_right hs).symm
        rw [← hy, ← List.append_assoc] at hd
        exact (readTail_escape (Escape.read_cut hd)).trans (prepend_eq_ok.2 ⟨v, hv, rfl⟩)
      · refine ⟨c :: v, ?_, by rw [readTail_char hc, hr, prepend_prepend, List.singleton_append]⟩
        obtain rfl : w = c :: x := by
          rw [← List.cons_append] at hs
          exact (List.append_cancel_right hs).symm
        exact (readTail_char hc).trans (prepend_eq_ok.2 ⟨v, hv, rfl⟩)

theorem readHead_escape {whole : List Char} {d : Char} (h : Escape.read s = some (d, t)) :
    readHead whole ('\\' :: s) = (readTail t).prepend [d] := by
  rw [readHead, if_pos rfl, h]

theorem readHead_char {whole : List Char} (hc : isIdentStart c = true) :
    readHead whole (c :: s) = (readTail s).prepend [c] := by
  have hb : c ≠ '\\' := by
    rintro rfl
    cases hc
  rw [readHead, if_neg hb, if_pos hc]

theorem exists_readHead (h : nmstart.run Rule.run s = some (u, ns)) (hi : Iterates (nmchar.run Rule.run) u t ns')
    (hs : s = w ++ t) :
    ∃ v, ∀ whole, readHead whole w = .ok (v, []) ∧ readHead whole s = (readTail t).prepend v := by
  obtain ⟨x, rfl⟩ : t <:+ u := hi.suffix (fun h => run_suffix Rule.lawful_run nmchar h)
  obtain ⟨v, hv, hr⟩ := exists_readTail hi rfl
  rcases (run_nmstart_eq_some.1 h).1 with ⟨d, r, rfl, hd⟩ | ⟨c, hc, rfl⟩
  · refine ⟨d :: v, fun whole => ⟨?_, by rw [readHead_escape hd, hr, prepend_prepend, List.singleton_append]⟩⟩
    obtain ⟨y, hy⟩ := Escape.read_suffix hd
    obtain rfl : w = '\\' :: (y ++ x) := by
      rw [← hy, ← List.append_assoc, ← List.cons_append] at hs
      exact (List.append_cancel_right hs).symm
    rw [← hy, ← List.append_assoc] at hd
    exact (readHead_escape (Escape.read_cut hd)).trans (prepend_eq_ok.2 ⟨v, hv, rfl⟩)
  · refine ⟨c :: v, fun whole => ⟨?_, by rw [readHead_char hc, hr, prepend_prepend, List.singleton_append]⟩⟩
    obtain rfl : w = c :: x := by
      rw [← List.cons_append] at hs
      exact (List.append_cancel_right hs).symm
    exact (readHead_char hc).trans (prepend_eq_ok.2 ⟨v, hv, rfl⟩)

/-- How an identifier begins, up to the characters that may be any of a name. -/
inductive Head : List Char → List Char → Prop
  | dashes {u : List Char} : Head ('-' :: '-' :: u) u
  | start {s u : List Char} : nmstart.run Rule.run s = some (u, []) → Head s u
  | dash {s u : List Char} : nmstart.run Rule.run s = some (u, []) → Head ('-' :: s) u

theorem head_ne_dash (h : nmstart.run rules s = some (t, ns)) : s.head? ≠ some '-' := by
  rcases (run_nmstart_eq_some.1 h).1 with ⟨d, r, rfl, -⟩ | ⟨c, hc, rfl⟩
  · simp
  · intro h
    cases h
    cases hc

theorem not_dashes (h : s.head? ≠ some '-') : (literal "--").run rules s = none ∧
    (literal "--").run rules ('-' :: s) = none := by
  constructor
  · rw [run_literal_eq_none]
    rintro ⟨v, rfl⟩
    exact h rfl
  · rw [run_literal_eq_none]
    rintro ⟨v, hv⟩
    exact h (by rw [← (List.cons.inj hv).2]; rfl)

theorem run_head_eq_some :
    (choice (literal "--") (seq (maybe (exactly '-')) nmstart)).run Rule.run s = some (u, ns) ↔
      Head s u ∧ ns = [] := by
  constructor
  · intro h
    refine ⟨?_, run_callFree rfl h⟩
    rcases run_choice_eq_some.1 h with h | ⟨-, h⟩
    · obtain ⟨rfl, -⟩ := run_literal_eq_some.1 h
      exact .dashes
    · obtain ⟨r, ms, ks, hm, hn, rfl⟩ := run_seq_eq_some.1 h
      obtain rfl : ks = [] := run_callFree rfl hn
      rcases run_maybe_eq_some.1 hm with hm | ⟨-, rfl, -⟩
      · obtain ⟨rfl, -⟩ := run_exactly_eq_some.1 hm
        exact .dash hn
      · exact .start hn
  · rintro ⟨h, rfl⟩
    cases h with
    | dashes => exact run_choice_eq_some.2 (Or.inl (run_literal_eq_some.2 ⟨rfl, rfl⟩))
    | start h =>
        have hd := head_ne_dash h
        refine run_choice_eq_some.2 (Or.inr ⟨(not_dashes hd).1, run_seq_eq_some.2 ⟨s, [], [], ?_, h, rfl⟩⟩)
        exact run_maybe_eq_some.2 (Or.inr ⟨run_exactly_eq_none.2 hd, rfl, rfl⟩)
    | @dash r _ h =>
        have hd := head_ne_dash h
        refine run_choice_eq_some.2 (Or.inr ⟨(not_dashes hd).2, run_seq_eq_some.2 ⟨r, [], [], ?_, h, rfl⟩⟩)
        exact run_maybe_eq_some.2 (Or.inl (run_exactly_cons _))

/-- An identifier is a beginning and all the characters of a name that follow. -/
theorem run_ident_eq_some : Rule.ident.run s = some (t, ns) ↔
    ∃ u, Head s u ∧ Iterates (nmchar.run Rule.run) u t [] ∧ ns = [⟨.ident, s, t, []⟩] := by
  rw [Rule.run_node rfl]
  change (∃ ms, (seq (choice (literal "--") (seq (maybe (exactly '-')) nmstart)) (star nmchar)).run Rule.run s =
    some (t, ms) ∧ ns = [⟨.ident, s, t, []⟩]) ↔ _
  simp only [run_seq_eq_some, run_head_eq_some, run_star_eq_some Rule.lawful_run (e := nmchar) rfl]
  constructor
  · rintro ⟨_, ⟨u, _, ks, ⟨hh, rfl⟩, hi, hks⟩, rfl⟩
    clear hks
    have hstar : (star nmchar).run Rule.run u = some (t, ks) := (run_star_eq_some Rule.lawful_run rfl).2 hi
    have hks : ks = [] := run_callFree rfl hstar
    exact ⟨u, hh, hks ▸ hi, rfl⟩
  · rintro ⟨u, hh, hi, rfl⟩
    exact ⟨[], ⟨u, [], [], ⟨hh, rfl⟩, hi, rfl⟩, rfl⟩

theorem decode_of_read (h : read w = .ok (v, [])) : decode w = .ok v := by
  rw [decode, h]

theorem read_start (h : s.head? ≠ some '-') : read s = readHead s s := by
  cases s with
  | nil => rfl
  | cons c s =>
      have hc : c ≠ '-' := by simpa using h
      unfold read
      split
      next heq => exact absurd (List.cons.inj heq).1 hc
      next heq => exact absurd (List.cons.inj heq).1 hc
      next => rfl

theorem read_dash (h : s.head? ≠ some '-') :
    read ('-' :: s) = (readHead ('-' :: s) s).prepend ['-'] := by
  cases s with
  | nil => rfl
  | cons c s =>
      have hc : c ≠ '-' := by simpa using h
      unfold read
      split
      next heq => exact absurd (List.cons.inj (List.cons.inj heq).2).1 hc
      next heq =>
        cases heq
        rfl
      next hne => exact absurd rfl (hne (c :: s))

theorem head?_of_readHead {whole : List Char} (h : readHead whole w = .ok (v, []))
    (hs : (w ++ t).head? ≠ some '-') :
    w.head? ≠ some '-' := by
  cases w with
  | nil => cases h
  | cons c w => exact hs

/-- What the grammar takes for an identifier is read, and then what the rest has of a name. -/
theorem read_of_run (h : Rule.ident.run s = some (t, ns)) (hs : s = w ++ t) :
    ∃ v, read w = .ok (v, []) ∧ read s = (readTail t).prepend v := by
  obtain ⟨u, hh, hi, -⟩ := run_ident_eq_some.1 h
  obtain ⟨x, rfl⟩ : t <:+ u := hi.suffix (fun h => run_suffix Rule.lawful_run nmchar h)
  cases hh with
  | dashes =>
      obtain ⟨v, hv, hr⟩ := exists_readTail hi rfl
      obtain rfl : w = '-' :: '-' :: x := by
        rw [← List.cons_append, ← List.cons_append] at hs
        exact (List.append_cancel_right hs).symm
      exact ⟨_, prepend_eq_ok.2 ⟨v, hv, rfl⟩, (congrArg (Reading.prepend _) hr).trans (prepend_prepend _)⟩
  | start hn =>
      obtain ⟨v, hv⟩ := exists_readHead hn hi hs
      have hw := head?_of_readHead (hv w).1 (hs ▸ head_ne_dash hn)
      exact ⟨v, (read_start hw).trans (hv w).1, (read_start (head_ne_dash hn)).trans (hv s).2⟩
  | @dash r _ hn =>
      obtain ⟨y, rfl⟩ : t <:+ r := (List.suffix_append x t).trans (run_suffix Rule.lawful_run nmstart hn)
      obtain rfl : w = '-' :: y := by
        rw [← List.cons_append] at hs
        exact (List.append_cancel_right hs).symm
      obtain ⟨v, hv⟩ := exists_readHead hn hi rfl
      have hy := head?_of_readHead (hv []).1 (head_ne_dash hn)
      refine ⟨'-' :: v, (read_dash hy).trans (prepend_eq_ok.2 ⟨v, (hv _).1, rfl⟩), ?_⟩
      rw [read_dash (head_ne_dash hn), (hv _).2, prepend_prepend, List.singleton_append]

/-- What the grammar takes for an identifier can be decoded. -/
theorem exists_decode (h : Rule.ident.run s = some (t, ns)) (hs : s = w ++ t) :
    ∃ v, decode w = .ok v := by
  obtain ⟨v, hv, -⟩ := read_of_run h hs
  exact ⟨v, decode_of_read hv⟩

/-! Without escapes an identifier stands for itself. -/

theorem readTail_of_not_mem (hw : '\\' ∉ w) (h : readTail w = .ok (v, t)) : v ++ t = w := by
  induction w generalizing v with
  | nil =>
      rw [readTail_nil] at h
      cases h
      rfl
  | cons c w ih =>
      rw [List.mem_cons, not_or] at hw
      rw [readTail, if_neg (Ne.symm hw.1)] at h
      split at h
      next =>
        obtain ⟨x, hx, rfl⟩ := prepend_eq_ok.1 h
        exact congrArg (c :: ·) (ih hw.2 hx)
      next =>
        cases h
        rfl

theorem readHead_of_not_mem {whole : List Char} (hw : '\\' ∉ w) (h : readHead whole w = .ok (v, t)) : v ++ t = w := by
  cases w with
  | nil => cases h
  | cons c w =>
      rw [List.mem_cons, not_or] at hw
      rw [readHead, if_neg (Ne.symm hw.1)] at h
      split at h
      next =>
        obtain ⟨x, hx, rfl⟩ := prepend_eq_ok.1 h
        exact congrArg (c :: ·) (readTail_of_not_mem hw.2 hx)
      next => cases h

theorem read_of_not_mem (hw : '\\' ∉ w) (h : read w = .ok (v, t)) : v ++ t = w := by
  unfold read at h
  split at h
  next =>
    obtain ⟨x, hx, rfl⟩ := prepend_eq_ok.1 h
    have hr := readTail_of_not_mem (by simpa using hw) hx
    simp [hr]
  next =>
    obtain ⟨x, hx, rfl⟩ := prepend_eq_ok.1 h
    have hr := readHead_of_not_mem (by simpa using hw) hx
    simp [hr]
  next => exact readHead_of_not_mem hw h

theorem decode_of_not_mem (hw : '\\' ∉ w) (h : decode w = .ok v) : v = w := by
  rw [decode] at h
  split at h
  next => cases h
  next x hr =>
    cases h
    simpa using read_of_not_mem hw hr
  next => cases h

theorem ne_nil_of_prepend {d : Char} {x : Reading} (h : x.prepend (d :: u) = .ok (v, t)) : v ≠ [] := by
  obtain ⟨w, -, rfl⟩ := prepend_eq_ok.1 h
  exact List.cons_ne_nil d (u ++ w)

theorem ne_nil_of_readHead {whole : List Char} (h : readHead whole w = .ok (v, t)) : v ≠ [] := by
  cases w with
  | nil => cases h
  | cons c w =>
      rw [readHead] at h
      split at h
      next =>
        split at h
        next => cases h
        next => exact ne_nil_of_prepend h
      next =>
        split at h
        next => exact ne_nil_of_prepend h
        next => cases h

/-- No identifier is empty. -/
theorem ne_nil_of_decode (h : decode w = .ok v) : v ≠ [] := by
  rw [decode] at h
  split at h
  next => cases h
  next x hr =>
    cases h
    unfold read at hr
    split at hr
    next => exact ne_nil_of_prepend hr
    next => exact ne_nil_of_prepend hr
    next => exact ne_nil_of_readHead hr
  next => cases h

end SelectorSyntax.Text.Identifier
