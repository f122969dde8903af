import SelectorSyntax.Proofs.Assembly.Totality
import SelectorSyntax.Proofs.Bracket.Recording

namespace SelectorSyntax.Bracket

open Grammar Grammar.Expression Selector.Spelling Text CharClass

/-- Reads a text from left to right, with the brackets that are open, the innermost first: an opener is
pushed, a closer has to match the innermost opener and pops it, and anything else is taken piece by piece.
The result is how many brackets have been open at most at one time. -/
def reading (stack : List Char) (s : List Char) : Option Nat :=
  match s with
  | [] => if stack.isEmpty then some 0 else none
  | c :: r =>
    if isOpener c then (reading (c :: stack) r).map (max (stack.length + 1))
    else match openerOf? c with
      | some o => if stack.head? = some o then reading stack.tail r else none
      | none =>
        match _h : unit? (c :: r) with
        | none => none
        | some t => reading stack t
termination_by s.length
decreasing_by
  · exact Nat.lt_succ_self _
  · exact Nat.lt_succ_self _
  · exact unit?_length _h

variable {d h : Nat} {st : State} {c o : Char} {s t u : List Char} {stack : List Char} {ns : List Node}
  {pairs : List (List Char × List Char)}

theorem reading_open (ho : isOpener o = true) :
    reading stack (o :: s) = (reading (o :: stack) s).map (max (stack.length + 1)) := by
  rw [reading, if_pos ho]

theorem reading_close (hc : openerOf? c = some o) :
    reading stack (c :: s) = if stack.head? = some o then reading stack.tail s else none := by
  rw [reading, if_neg (by simp [isOpener_of_closer hc])]
  simp only [hc]

theorem reading_unit (hu : unit? s = some t) : reading stack s = reading stack t := by
  cases s with
  | nil => cases hu
  | cons c r =>
      have ho : ¬ isOpener c = true := by
        intro ho
        rw [unit?_opener ho] at hu
        cases hu
      have hc : openerOf? c = none := by
        cases hc : openerOf? c with
        | none => rfl
        | some o =>
            rw [unit?_closer hc] at hu
            cases hu
      rw [reading, if_neg ho]
      simp only [hc]
      split
      next hn =>
        rw [hn] at hu
        cases hu
      next v hv =>
        rw [hv] at hu
        cases hu
        rfl

/-- What a reading meets where it goes on or ends. -/
theorem reading_cases (hr : reading stack s = some h) :
    s = [] ∧ stack = [] ∧ h = 0 ∨
      (∃ o r k, isOpener o = true ∧ s = o :: r ∧ reading (o :: stack) r = some k ∧ h = max (stack.length + 1) k) ∨
      (∃ c o r rest, openerOf? c = some o ∧ s = c :: r ∧ stack = o :: rest ∧ reading rest r = some h) ∨
      ∃ t, unit? s = some t ∧ reading stack t = some h := by
  cases s with
  | nil =>
      rw [reading] at hr
      split at hr
      next hs =>
        cases hr
        exact Or.inl ⟨rfl, List.isEmpty_iff.1 hs, rfl⟩
      next => cases hr
  | cons c r =>
      by_cases ho : isOpener c = true
      · rw [reading_open ho] at hr
        obtain ⟨k, hk, rfl⟩ := Option.map_eq_some_iff.1 hr
        exact Or.inr (Or.inl ⟨c, r, k, ho, rfl, hk, rfl⟩)
      · cases hc : openerOf? c with
        | some o =>
            rw [reading_close hc] at hr
            split at hr
            next hs =>
              cases stack with
              | nil => cases hs
              | cons p rest =>
                  cases hs
                  exact Or.inr (Or.inr (Or.inl ⟨c, o, r, rest, hc, rfl, rfl, hr⟩))
            next => cases hr
        | none =>
            cases hu : unit? (c :: r) with
            | some t =>
                rw [reading_unit hu] at hr
                exact Or.inr (Or.inr (Or.inr ⟨t, rfl, hr⟩))
            | none =>
                rw [reading, if_neg ho] at hr
                simp only [hc] at hr
                split at hr
                next => cases hr
                next t ht =>
                  rw [ht] at hu
                  cases hu

/-- Balanced text neither helps nor hinders what is read behind it. -/
theorem Balanced.reading_isSome (hb : Balanced s t pairs) (stack : List Char) :
    (reading stack s).isSome = (reading stack t).isSome := by
  induction hb generalizing stack with
  | nil => rfl
  | unit hu _ ih => rw [reading_unit hu, ih]
  | group ho hc _ _ ihin ih =>
      rw [reading_open ho, Option.isSome_map, ihin, reading_close hc]
      simp only [List.head?_cons, if_true, List.tail_cons]
      exact ih stack

/-- The walk follows a reading as long as there are no more brackets open than may be. -/
theorem walk_of_reading (hr : reading (st.opened.map Mark.bracket) s = some h) (hd : st.opened.length ≤ d) :
    (∃ x, walk d st s = .ok x) ↔ h ≤ d := by
  induction hn : s.length using Nat.strongRecOn generalizing s st h with
  | ind n ih =>
      rcases reading_cases hr with ⟨rfl, -, rfl⟩ | ⟨o, r, k, ho, rfl, hk, rfl⟩ | ⟨c, o, r, rest, hc, rfl, hs, hk⟩ |
        ⟨t, hu, hk⟩
      · rw [walk]
        simp
      · rw [walk_open ho]
        by_cases hlt : d ≤ st.opened.length
        · rw [if_pos hlt]
          simp only [reduceCtorEq, exists_false, List.length_map, false_iff]
          omega
        · have hk : reading (State.opened ⟨⟨o, o :: r⟩ :: st.opened, st.strays⟩ |>.map Mark.bracket) r = some k := hk
          have hk' := ih r.length (by simp [← hn]) hk (by simp only [List.length_cons]; omega) rfl
          rw [if_neg hlt, hk', List.length_map]
          omega
      · obtain ⟨opened, strays⟩ := st
        obtain ⟨m, os, rfl, hm, rfl⟩ := List.map_eq_cons_iff.1 hs
        rw [walk_close hc hm]
        have hk : reading (State.opened ⟨os, strays⟩ |>.map Mark.bracket) r = some h := hk
        exact ih r.length (by simp [← hn]) hk (Nat.le_of_succ_le hd) rfl
      · rw [passes_unit hu d st]
        exact ih t.length (by rw [← hn]; exact unit?_length hu) hk hd rfl

theorem scan_of_reading {input : List Char} (hr : reading [] input = some h) :
    (∃ report, scan input d = .ok report) ↔ h ≤ d := by
  have hr : reading (State.opened ⟨[], []⟩ |>.map Mark.bracket) input = some h := hr
  rw [← walk_of_reading hr (Nat.zero_le d)]
  constructor
  · rintro ⟨report, hs⟩
    exact walk_of_scan hs
  · rintro ⟨x, hx⟩
    exact ⟨_, by rw [scan, hx]⟩

/-! The grammar takes for an argument whatever a reading gets through. -/

theorem balanced_skip (s : List Char) : Balanced s (Blank.skip s) [] :=
  (flat_ws.maybe (Blank.run_maybe_ws s)).balanced

theorem balanced_argItem (hs : Blank.comment? s = none) (hi : argItem.run Rule.run s = some (t, ns)) :
    Balanced s t (Node.pairsOfAll ns) := by
  obtain ⟨e, he, hi⟩ := run_choices_some hi
  simp only [List.mem_cons, List.not_mem_nil, or_false] at he
  rcases he with rfl | rfl | rfl | rfl | rfl
  · exact (paired_of_run .string s trivial rfl rfl hi).balanced
  · exact (paired_of_run .number s trivial rfl rfl hi).balanced
  · exact (paired_of_run .ident s trivial rfl rfl hi).balanced
  · exact (paired_of_run .argGroup s trivial rfl rfl hi).balanced
  · exact (paired_of_run .argDelim s hs rfl rfl hi).balanced

theorem run_ident_of_isValid (hv : Escape.isValid ('\\' :: s) = true) : Rule.ident.run ('\\' :: s) ≠ none := by
  obtain ⟨d, u, hd⟩ := Escape.exists_read hv
  have hstart : nmstart.run Rule.run ('\\' :: s) = some (u, []) :=
    Identifier.run_nmstart_eq_some.2 ⟨Or.inl ⟨d, s, rfl, hd⟩, rfl⟩
  obtain ⟨t, ht⟩ := exists_iterates_nil Rule.lawful_run (e := nmchar) rfl rfl u
  have hrun := Identifier.run_ident_eq_some.2 ⟨u, .start hstart, ht, rfl⟩
  rw [hrun]
  exact Option.some_ne_none _

theorem isDelimiter_of_isPlain (hc : isPlain c = true) (hw : isWhitespace c = false) : isDelimiter c = true := by
  have hn : c ∉ ['(', ')', '[', ']', '"', '\'', '\\'] := by
    intro hm
    simp only [List.mem_cons, List.not_mem_nil, or_false] at hm
    rcases hm with rfl | rfl | rfl | rfl | rfl | rfl | rfl <;> cases hc
  rw [isDelimiter, hw, decide_eq_false hn]
  rfl

/-- Where blanks have been skipped, a piece without brackets begins an item. -/
theorem run_argItem_of_unit (hs : Blank.Settled s) (hu : unit? s = some t) : argItem.run Rule.run s ≠ none := by
  intro hnone
  have hnone (r : Rule) (hr : call r ∈ [call .string, call .number, call .ident, call .argGroup, call .argDelim]) :
      r.run s = none := run_choices_eq_none.1 hnone _ hr
  rcases unit?_cases hu with ⟨ns, hrun⟩ | ⟨c, hc, rfl⟩ | hrun | ⟨c, hc, -, rfl⟩
  · rw [hnone .string (by simp)] at hrun
    cases hrun
  · exact run_ident_of_isValid (by simpa [Escape.isValid] using hc) (hnone .ident (by simp))
  · rw [hs.comment] at hrun
    cases hrun
  · have hrun : Rule.argDelim.run (c :: t) = some (t, [⟨.argDelim, c :: t, t, []⟩]) :=
      run_argDelim_eq_some.2 ⟨c, isDelimiter_of_isPlain hc (hs.whitespace c t rfl), rfl, rfl⟩
    rw [hnone .argDelim (by simp)] at hrun
    cases hrun

/-- A round behind an item begins with the blanks that there are. -/
theorem run_round_of_argItem (hi : argItem.run Rule.run (Blank.skip s) = some (t, ns)) :
    ∃ ms, round.run Rule.run s = some (t, ms) := by
  by_cases hs : Blank.Settled s
  · rw [hs.skip_eq] at hi
    exact ⟨_, run_seq_eq_some.2 ⟨s, [], ns, run_maybe_eq_some.2 (Or.inr ⟨run_argSpace_none.2 hs, rfl, rfl⟩), hi, rfl⟩⟩
  · exact ⟨_, run_seq_eq_some.2 ⟨_, _, ns, run_maybe_eq_some.2 (Or.inl (run_argSpace hs)), hi, rfl⟩⟩

theorem run_argItem_of_round (hr : round.run Rule.run s = some (t, ns)) :
    ∃ ms, argItem.run Rule.run (Blank.skip s) = some (t, ms) := by
  obtain ⟨u, ms, ks, hu, hi, -⟩ := run_seq_eq_some.1 hr
  rcases run_maybe_eq_some.1 hu with hu | ⟨hn, rfl, -⟩
  · have hs : ¬ Blank.Settled s := by
      intro hs
      rw [run_call, run_argSpace_none.2 hs] at hu
      cases hu
    rw [run_call, run_argSpace hs] at hu
    cases hu
    exact ⟨ks, hi⟩
  · exact ⟨ks, (run_argSpace_none.1 hn).skip_eq.symm ▸ hi⟩

/-- The rounds of an argument from its first item on are an argument, unless there are none. -/
theorem maybe_argument_of_iterates (hi : Iterates (round.run Rule.run) s t ns) :
    ∃ u ms, (maybe (call .argument)).run Rule.run (Blank.skip s) = some (u, ms) ∧ Blank.skip u = Blank.skip t := by
  cases hi with
  | stop hn =>
      refine ⟨Blank.skip s, [], run_maybe_eq_some.2 (Or.inr ⟨?_, rfl, rfl⟩), (Blank.settled_skip s).skip_eq⟩
      refine Rule.run_eq_none.2 (run_seq_eq_none.2 (Or.inl ?_))
      cases hitem : argItem.run Rule.run (Blank.skip s) with
      | none => rfl
      | some x =>
          obtain ⟨ms, hms⟩ := run_round_of_argItem hitem
          rw [hn] at hms
          cases hms
  | next hv hi =>
      obtain ⟨ms, hms⟩ := run_argItem_of_round hv
      have hstar := (run_star_eq_some Rule.lawful_run rfl).2 hi
      have hrun := (Rule.run_node (r := .argument) rfl).2 ⟨_, run_seq_eq_some.2 ⟨_, ms, _, hms, hstar, rfl⟩, rfl⟩
      exact ⟨t, _, run_maybe_eq_some.2 (Or.inl hrun), rfl⟩

/-- A group is matched if the rounds behind its opener end in front of the closer. -/
theorem run_argGroup_of_iterates (ho : isOpener o = true) (hc : openerOf? c = some o)
    (hi : Iterates (round.run Rule.run) s t ns) (ht : Blank.skip t = c :: u) : Rule.argGroup.run (o :: s) ≠ none := by
  obtain ⟨v, ms, hm, hv⟩ := maybe_argument_of_iterates hi
  rw [ht] at hv
  rw [Ne, Rule.run_eq_none]
  intro hn
  obtain ⟨hparen, hbracket⟩ := run_choice_eq_none.1 hn
  rcases closer_cases hc with ⟨rfl, rfl⟩ | ⟨rfl, rfl⟩
  · rw [(run_group_eq_some rfl rfl).2 ⟨s, v, ms, rfl, hm, hv, rfl⟩] at hparen
    cases hparen
  · rw [(run_group_eq_some rfl rfl).2 ⟨s, v, ms, rfl, hm, hv, rfl⟩] at hbracket
    cases hbracket

/-- Nothing is left, or the closer of the innermost bracket. -/
def Done (stack s : List Char) : Prop :=
  stack = [] ∧ s = [] ∨ ∃ c o r rest, openerOf? c = some o ∧ s = c :: r ∧ stack = o :: rest

theorem Done.finished (hs : Done stack (Blank.skip s)) : Finished s := by
  intro c r hc
  rcases hs with ⟨-, hs⟩ | ⟨d, o, u, rest, ho, hs, -⟩
  · rw [hs] at hc
    cases hc
  · rw [hs] at hc
    cases hc
    exact (closer_cases ho).imp And.right And.right

/-- The rounds of an argument go on as far as the brackets are closed that have been opened in it. -/
theorem iterates_of_reading (hr : (reading stack s).isSome = true) :
    ∃ t ns, Iterates (round.run Rule.run) s t ns ∧ Done stack (Blank.skip t) := by
  induction hn : s.length using Nat.strongRecOn generalizing s stack with
  | ind n ih =>
      have hle := (Blank.skip_suffix s).length_le
      rw [(balanced_skip s).reading_isSome] at hr
      -- An item takes something, so that the rest is read by the hypothesis of induction.
      have hitem (hne : argItem.run Rule.run (Blank.skip s) ≠ none) :
          ∃ t ns, Iterates (round.run Rule.run) s t ns ∧ Done stack (Blank.skip t) := by
        obtain ⟨⟨v, ms⟩, hv⟩ := Option.ne_none_iff_exists'.1 hne
        have hlt := run_shorter Rule.lawful_run argItem rfl hv
        rw [(balanced_argItem (Blank.settled_skip s).comment hv).reading_isSome] at hr
        obtain ⟨ks, hks⟩ := run_round_of_argItem hv
        obtain ⟨t, ns, hi, ht⟩ := ih v.length (by omega) hr rfl
        exact ⟨t, _, .next hks hi, ht⟩
      have hstop (hc : Done stack (Blank.skip s)) :
          ∃ t ns, Iterates (round.run Rule.run) s t ns ∧ Done stack (Blank.skip t) :=
        ⟨s, [], .stop hc.finished.run_round, hc⟩
      obtain ⟨h, hh⟩ := Option.isSome_iff_exists.1 hr
      rcases reading_cases hh with ⟨hs, hstack, -⟩ | ⟨o, r, k, ho, hs, hk, -⟩ | ⟨c, o, r, rest, hc, hs, hstack, -⟩ |
        ⟨t, hu, -⟩
      · exact hstop (Or.inl ⟨hstack, hs⟩)
      · have hlt : r.length < n := by
          rw [hs, List.length_cons] at hle
          omega
        obtain ⟨t, ns, hi, ht⟩ := ih r.length hlt (Option.isSome_iff_exists.2 ⟨k, hk⟩) rfl
        rcases ht with ⟨hnil, -⟩ | ⟨c, p, w, rest, hc, hw, hp⟩
        · cases hnil
        · cases hp
          apply hitem
          intro hnone
          rw [hs] at hnone
          exact run_argGroup_of_iterates ho hc hi hw (run_choices_eq_none.1 hnone (call .argGroup) (by simp))
      · exact hstop (Or.inr ⟨c, o, r, rest, hc, hs, hstack⟩)
      · exact hitem (run_argItem_of_unit (Blank.settled_skip s) hu)

theorem run_text_of_reading (hr : (reading [] s).isSome = true) : ∃ x, Rule.text.run s = some x := by
  obtain ⟨t, ns, hi, ht⟩ := iterates_of_reading hr
  obtain ⟨v, ms, hm, hv⟩ := maybe_argument_of_iterates hi
  have hnil : Blank.skip v = [] := by
    rcases ht with ⟨-, ht⟩ | ⟨c, o, r, rest, -, -, hs⟩
    · exact hv.trans ht
    · cases hs
  exact ⟨_, run_text_eq_some.2 ⟨v, ms, hm, hnil, rfl, rfl⟩⟩

/-- A text is taken for the argument of a pseudo-class if and only if it can be read with its brackets in
pairs, no more of them inside one another than allowed. -/
theorem parseTextFragment_iff_reading (input : List Char) (d : Nat) :
    (∃ v, parseTextFragment input d = .ok v) ↔ ∃ h, reading [] input = some h ∧ h ≤ d := by
  constructor
  · rintro ⟨v, hv⟩
    obtain ⟨root, -, hm, -⟩ := parseTextFragment_eq_ok hv
    obtain ⟨⟨report, hscan⟩, t, hrun⟩ := matchRoot_eq_ok hm
    obtain rfl := eq_nil_of_run (Or.inr rfl) hrun
    have hb := (paired_of_run .text input trivial rfl rfl hrun).balanced.reading_isSome []
    obtain ⟨h, hh⟩ := Option.isSome_iff_exists.1 (hb.trans (by rw [reading]; rfl))
    exact ⟨h, hh, (scan_of_reading hh).1 ⟨report, hscan⟩⟩
  · rintro ⟨h, hh, hd⟩
    obtain ⟨report, hscan⟩ := (scan_of_reading hh).2 hd
    obtain ⟨x, hx⟩ := run_text_of_reading (Option.isSome_iff_exists.2 ⟨h, hh⟩)
    exact exists_parseTextFragment hscan hx

end SelectorSyntax.Bracket
