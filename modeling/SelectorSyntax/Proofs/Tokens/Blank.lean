import SelectorSyntax.Proofs.Grammar.Unfold
import SelectorSyntax.Text.Blank

namespace SelectorSyntax.Text.Blank

open Grammar Expression CharClass

variable {s t : List Char} {ns : List Node}

/-! Equations of `skip`. -/

theorem skip_nil : skip [] = [] := by rw [skip]

theorem skip_whitespace {c : Char} (hc : isWhitespace c = true) : skip (c :: s) = skip s := by
  rw [skip, if_pos hc]

theorem skip_comment (h : comment? s = some t) : skip s = skip t := by
  cases s with
  | nil => cases h
  | cons c s =>
      rw [skip]
      split
      next hc =>
        have hne : c ≠ '/' := by
          rintro rfl
          cases hc
        unfold comment? at h
        split at h
        next heq =>
          cases heq
          exact absurd rfl hne
        next => cases h
      next => rw [h]

theorem skip_other {c : Char} (hc : isWhitespace c = false) (h : comment? (c :: s) = none) :
    skip (c :: s) = c :: s := by
  rw [skip, if_neg (by simp [hc]), h]

theorem closeComment?_suffix (h : closeComment? s = some t) : t <:+ s := by
  induction s using closeComment?.induct with
  | case1 s =>
      rw [closeComment?] at h
      cases h
      exact (List.suffix_cons _ _).trans (List.suffix_cons _ _)
  | case2 c s hc ih =>
      rw [closeComment?] at h
      · exact (ih h).trans (List.suffix_cons _ _)
      · exact hc
  | case3 =>
      rw [closeComment?] at h
      cases h

theorem comment?_suffix (h : comment? s = some t) : t <:+ s := by
  unfold comment? at h
  split at h
  next => exact ((closeComment?_suffix h).trans (List.suffix_cons _ _)).trans (List.suffix_cons _ _)
  next => cases h

/-- A comment that is closed is the same whatever follows it. -/
theorem closeComment?_cut (h : closeComment? s = some t) : ∃ w, s = w ++ t ∧ ∀ k, closeComment? (w ++ k) = some k := by
  induction s using closeComment?.induct with
  | case1 s =>
      rw [closeComment?] at h
      cases h
      exact ⟨['*', '/'], rfl, fun k => by rw [List.cons_append, List.cons_append, closeComment?, List.nil_append]⟩
  | case2 c s hc ih =>
      rw [closeComment?] at h
      · obtain ⟨w, rfl, hw⟩ := ih h
        refine ⟨c :: w, rfl, fun k => ?_⟩
        rw [List.cons_append, closeComment?]
        · exact hw k
        · rintro r rfl hr
          rcases w with _ | ⟨d, w⟩
          · exact absurd (closeComment?_length (hw k)) (Nat.lt_irrefl _)
          · cases hr
            exact hc (w ++ t) rfl rfl
      · exact hc
  | case3 =>
      rw [closeComment?] at h
      cases h

theorem comment?_cut (h : comment? s = some t) : ∃ w, s = w ++ t ∧ ∀ k, comment? (w ++ k) = some k := by
  unfold comment? at h
  split at h
  next =>
    obtain ⟨w, rfl, hw⟩ := closeComment?_cut h
    exact ⟨'/' :: '*' :: w, rfl, hw⟩
  next => cases h

theorem skip_suffix (s : List Char) : skip s <:+ s := by
  induction s using skip.induct with
  | case1 => simp only [skip_nil, List.suffix_rfl]
  | case2 c r hc ih =>
      rw [skip_whitespace hc]
      exact ih.trans (List.suffix_cons _ _)
  | case3 c r _ t ht ih =>
      rw [skip_comment ht]
      exact ih.trans (comment?_suffix ht)
  | case4 c r hc h =>
      have hs := skip_other (by simpa using hc) h
      simp only [hs, List.suffix_rfl]

/-- Neither whitespace nor a closed comment begins here. -/
structure Settled (s : List Char) : Prop where
  comment : comment? s = none
  whitespace : ∀ c r, s = c :: r → isWhitespace c = false

theorem settled_skip (s : List Char) : Settled (skip s) := by
  induction s using skip.induct with
  | case1 =>
      rw [skip_nil]
      exact ⟨rfl, fun c r h => by cases h⟩
  | case2 c r hc ih => rwa [skip_whitespace hc]
  | case3 c r _ t ht ih => rwa [skip_comment ht]
  | case4 c r hc h =>
      rw [skip_other (by simpa using hc) h]
      refine ⟨h, fun d u hd => ?_⟩
      cases hd
      simpa using hc

theorem Settled.skip_eq (h : Settled s) : skip s = s := by
  cases s with
  | nil => exact skip_nil
  | cons c s => exact skip_other (h.whitespace c s rfl) h.comment

theorem settled_iff : Settled s ↔ skip s = s :=
  ⟨Settled.skip_eq, fun h => h ▸ settled_skip s⟩

/-! The grammar takes the same blanks. -/

theorem run_wsChar_cons (c : Char) {rules : Rule → Matcher} :
    wsChar.run rules (c :: s) = if isWhitespace c then some (s, []) else none := rfl

/-- The body of a comment goes on to the first `*/` or to the end of the text. -/
theorem iterates_commentBody (h : Iterates ((butNot (literal "*/")).run Rule.run) s t ns) :
    match closeComment? s with
    | some u => t = '*' :: '/' :: u
    | none => t = [] := by
  induction h with
  | @stop s hs =>
      cases s with
      | nil => rfl
      | cons c s =>
          rcases run_seq_eq_none.1 hs with hs | ⟨u, ms, hu, hany⟩
          · obtain ⟨⟨t, ns⟩, hx⟩ := run_absent_eq_none.1 hs
            obtain ⟨hx, -⟩ := run_literal_eq_some.1 hx
            rw [show "*/".toList ++ t = '*' :: '/' :: t from rfl] at hx
            cases hx
            rfl
          · obtain ⟨-, rfl, -⟩ := run_absent_eq_some.1 hu
            cases run_any_eq_none.1 hany
  | @next s t u ns ms hs _ ih =>
      obtain ⟨hx, ⟨c, rfl⟩, -⟩ := run_butNot_eq_some.1 hs
      have hc : ∀ v, c = '*' → t = '/' :: v → False := by
        rintro v rfl rfl
        exact run_literal_eq_none.1 hx ⟨v, rfl⟩
      rwa [closeComment?.eq_2 c t hc]

theorem run_comment : Grammar.comment.run Rule.run s = (comment? s).map fun t => (t, []) := by
  have hseq : Grammar.comment =
      seq (literal "/*") (seq (star (butNot (literal "*/"))) (literal "*/")) := rfl
  unfold comment?
  split
  next r =>
    have hl : (literal "/*").run Rule.run ('/' :: '*' :: r) = some (r, []) := run_literal_eq_some.2 ⟨rfl, rfl⟩
    rw [hseq, run_seq_of_run hl]
    obtain ⟨u, hu⟩ := exists_iterates_nil Rule.lawful_run (e := butNot (literal "*/")) rfl rfl r
    rw [run_seq_of_run ((run_star_eq_some Rule.lawful_run rfl).2 hu)]
    have hb := iterates_commentBody hu
    cases hc : closeComment? r with
    | none =>
        rw [hc] at hb
        subst hb
        rfl
    | some v =>
        rw [hc] at hb
        subst hb
        exact run_literal_eq_some.2 ⟨rfl, rfl⟩
  next hs =>
    rw [hseq]
    refine run_seq_eq_none.2 (Or.inl (run_literal_eq_none.2 ?_))
    rintro ⟨r, hr⟩
    exact hs r hr.symm

theorem run_wsChar_eq_none (h : Settled s) {rules : Rule → Matcher} : wsChar.run rules s = none :=
  run_char_eq_none.2 h.whitespace

theorem iterates_blank (s : List Char) :
    Iterates ((choice wsChar Grammar.comment).run Rule.run) s (skip s) [] := by
  induction s using skip.induct with
  | case1 =>
      rw [skip_nil]
      exact .stop rfl
  | case2 c r hc ih =>
      rw [skip_whitespace hc]
      have hr : (choice wsChar Grammar.comment).run Rule.run (c :: r) = some (r, []) := by
        refine run_choice_eq_some.2 (Or.inl ?_)
        rw [run_wsChar_cons, if_pos hc]
      exact .next hr ih
  | case3 c r hc t ht ih =>
      rw [skip_comment ht]
      have hr : (choice wsChar Grammar.comment).run Rule.run (c :: r) = some (t, []) := by
        refine run_choice_eq_some.2 (Or.inr ⟨?_, ?_⟩)
        · rw [run_wsChar_cons, if_neg hc]
        · rw [run_comment, ht]
          rfl
      exact .next hr ih
  | case4 c r hc h =>
      rw [skip_other (by simpa using hc) h]
      refine .stop (run_choice_eq_none.2 ⟨?_, ?_⟩)
      · rw [run_wsChar_cons, if_neg hc]
      · rw [run_comment, h]
        rfl

/-- Optional whitespace takes all the blanks there are. -/
theorem run_maybe_ws (s : List Char) : (maybe ws).run Rule.run s = some (skip s, []) := by
  have hstar : (star (choice wsChar Grammar.comment)).run Rule.run s = some (skip s, []) :=
    (run_star_eq_some Rule.lawful_run rfl).2 (iterates_blank s)
  cases hs : (choice wsChar Grammar.comment).run Rule.run s with
  | none =>
      have hskip : skip s = s ∧ [] = ([] : List Node) := (iterates_blank s).unique (.stop hs)
      rw [hskip.1]
      exact run_maybe_eq_some.2 (Or.inr ⟨run_plus_eq_none.2 hs, rfl, rfl⟩)
  | some x =>
      exact run_maybe_eq_some.2 (Or.inl ((run_plus_eq_some Rule.lawful_run rfl).2 ⟨iterates_blank s, x, hs⟩))

theorem run_ws_eq_none : ws.run Rule.run s = none ↔ Settled s := by
  rw [ws, run_plus_eq_none]
  constructor
  · intro hs
    exact settled_iff.2 ((iterates_blank s).unique (.stop hs)).1
  · intro h
    refine run_choice_eq_none.2 ⟨run_wsChar_eq_none h, ?_⟩
    rw [run_comment, h.comment]
    rfl

theorem run_ws_eq_some : ws.run Rule.run s = some (t, ns) ↔ ¬ Settled s ∧ t = skip s ∧ ns = [] := by
  constructor
  · intro h
    have hm := run_maybe_eq_some.2 (Or.inl h)
    rw [run_maybe_ws] at hm
    cases hm
    refine ⟨fun hs => ?_, rfl, rfl⟩
    rw [run_ws_eq_none.2 hs] at h
    cases h
  · rintro ⟨hs, rfl, rfl⟩
    rcases run_maybe_eq_some.1 (run_maybe_ws s) with h | ⟨h, -⟩
    · exact h
    · exact absurd (run_ws_eq_none.1 h) hs

end SelectorSyntax.Text.Blank
