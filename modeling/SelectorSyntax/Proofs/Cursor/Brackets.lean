import SelectorSyntax.Proofs.Bracket.Walk
import SelectorSyntax.Proofs.Cursor.Quotes

namespace SelectorSyntax.Text.Cursor

open CharClass Place

variable {limit x maxDepth : Nat} {input : List Char} {q c d : Char} {s t v : List Char} {st st' : Scanned}

namespace Scanned

theorem pass_eq (hinput : byteSize input ≤ limit) (h : dropBytes? input st.cursor = some (c :: s)) :
    st.pass limit c = pure { st with cursor := st.cursor + c.utf8Size } := by
  rw [pass, add_of_place hinput (place_cons h), pure_bind]

theorem cursor_close (st : Scanned) (o c : Char) : (st.close o c).cursor = st.cursor := by
  unfold close
  split
  · split <;> rfl
  · rfl

theorem cursor_of_meet? (h : st.meet? maxDepth c = some st') : st'.cursor = st.cursor := by
  unfold meet? at h
  split at h
  · split at h
    · cases h
    · cases h
      rfl
  · split at h
    · cases h
      exact cursor_close st _ c
    · cases h
      rfl

end Scanned

theorem scanRound_end (h : peek input st.cursor = none) :
    scanRound limit input maxDepth st = pure (.done (.ok st.report)) := by
  rw [scanRound, h]

theorem scanRound_escape (hinput : byteSize input ≤ limit) (h : dropBytes? input st.cursor = some ('\\' :: s)) :
    scanRound limit input maxDepth st = pure (.again { st with cursor := offsetOf input s.tail }) := by
  have hs : dropBytes? input (st.cursor + 1) = some s := place_cons h
  simp only [scanRound, peek_cons h, if_true, add_of_place hinput hs, pure_bind]
  cases s with
  | nil => simp only [peek_end hs, List.tail_nil, offsetOf_of_place hs]
  | cons d s =>
      have hpass : Scanned.pass limit { st with cursor := st.cursor + 1 } d = _ := Scanned.pass_eq hinput hs
      simp only [peek_cons hs, hpass, pure_bind, List.tail_cons, offsetOf_of_place (place_cons hs)]

theorem scanRound_quoted (hinput : byteSize input ≤ limit) (h : dropBytes? input st.cursor = some (q :: s))
    (hb : q ≠ '\\') (hq : isQuote q = true) (hs : Quoted.readBody q s = some (v, t)) :
    scanRound limit input maxDepth st = pure (.again { st with cursor := offsetOf input t }) := by
  simp only [scanRound, peek_cons h, if_neg hb, hq, if_true, quoted_of_place hinput h, Quoted.read, hs, quotedAnswer,
    pure_bind]

theorem scanRound_unterminated (hinput : byteSize input ≤ limit) (h : dropBytes? input st.cursor = some (q :: s))
    (hb : q ≠ '\\') (hq : isQuote q = true) (hs : Quoted.readBody q s = none) :
    scanRound limit input maxDepth st = pure (.done (.ok st.report)) := by
  simp only [scanRound, peek_cons h, if_neg hb, hq, if_true, quoted_of_place hinput h, Quoted.read, hs, quotedAnswer,
    pure_bind]

theorem scanRound_comment (hinput : byteSize input ≤ limit) (h : dropBytes? input st.cursor = some (c :: s))
    (hb : c ≠ '\\') (hq : isQuote c = false) (hs : Blank.comment? (c :: s) = some t) :
    scanRound limit input maxDepth st = pure (.again { st with cursor := offsetOf input t }) := by
  simp only [scanRound, peek_cons h, if_neg hb, hq, Bool.false_eq_true, if_false, commentAt?_some hinput h hs, pure_bind]

theorem scanRound_meet (hinput : byteSize input ≤ limit) (h : dropBytes? input st.cursor = some (c :: s))
    (hb : c ≠ '\\') (hq : isQuote c = false) (hs : Blank.comment? (c :: s) = none) :
    scanRound limit input maxDepth st = pure (match st.meet? maxDepth c with
      | none => .done (.error (.nestingTooDeep st.cursor maxDepth))
      | some st' => .again { st' with cursor := st.cursor + c.utf8Size }) := by
  simp only [scanRound, peek_cons h, if_neg hb, hq, Bool.false_eq_true, if_false, commentAt?_none h hs, pure_bind]
  cases hst : st.meet? maxDepth c with
  | none => rfl
  | some st' =>
      have hcursor := Scanned.cursor_of_meet? hst
      rw [← hcursor] at h ⊢
      simp only [Scanned.pass_eq hinput h, pure_bind]

theorem advances_scanRound (hinput : byteSize input ≤ limit) (maxDepth : Nat) :
    Advances input Scanned.cursor (scanRound limit input maxDepth) := by
  intro st
  cases h : dropBytes? input st.cursor with
  | none => exact .done (scanRound_end (peek_of_no_place h))
  | some s =>
      cases s with
      | nil => exact .done (scanRound_end (peek_end h))
      | cons c r =>
          by_cases hb : c = '\\'
          · subst hb
            exact .again (scanRound_escape hinput h) (ahead_of_tail h r.tail_suffix)
          · cases hq : isQuote c with
            | true =>
                cases hs : Quoted.readBody c r with
                | none => exact .done (scanRound_unterminated hinput h hb hq hs)
                | some y =>
                    exact .again (scanRound_quoted hinput h hb hq hs) (ahead_of_tail h (Quoted.readBody_suffix hs))
            | false =>
                cases hs : Blank.comment? (c :: r) with
                | some t =>
                    have hahead := ahead_of_suffix h (Blank.comment?_suffix hs) (Blank.comment?_length hs)
                    exact .again (scanRound_comment hinput h hb hq hs) hahead
                | none =>
                    have hmeet : scanRound limit input maxDepth st = _ := scanRound_meet hinput h hb hq hs
                    split at hmeet
                    · exact .done hmeet
                    · exact .again hmeet (ahead_of_cons h)

/-! The brackets found are those of the scan over places. -/

/-- The brackets that a scan over places has found, told by their offsets, when it is at `x`. -/
def located (input : List Char) (st : Bracket.State) (x : Nat) : Scanned :=
  ⟨st.opened.map (Bracket.Mark.locate input), st.strays.map (Bracket.Mark.locate input), x⟩

theorem meet?_located (h : dropBytes? input x = some (c :: s)) (st : Bracket.State) :
    (located input st x).meet? maxDepth c = (st.step? maxDepth ⟨c, c :: s⟩).map fun st' => located input st' x := by
  have hmark : Bracket.Mark.locate input ⟨c, c :: s⟩ = (x, c) := by rw [Bracket.Mark.locate, offsetOf_of_place h]
  obtain ⟨opened, strays⟩ := st
  unfold Scanned.meet? Bracket.State.step?
  split
  · simp only [located, List.length_map]
    split
    · rfl
    · simp only [Option.map_some, List.map_cons, hmark]
  · cases Bracket.openerOf? c with
    | none => rfl
    | some o =>
        cases opened with
        | nil => simp only [located, Scanned.close, Bracket.State.close, Option.map_some, List.map_nil, List.map_cons,
            hmark]
        | cons m ms =>
            simp only [located, Scanned.close, Bracket.State.close, Option.map_some, List.map_cons]
            have hbracket : (m.locate input).2 = m.bracket := rfl
            rw [hbracket]
            split
            · rfl
            · simp only [List.map_cons, hmark]

/-- What is told of a scan over places. -/
def result (input : List Char) (maxDepth : Nat) :
    Except (List Char) Bracket.State → Except LexicalError Bracket.Report
  | .error p => .error (.nestingTooDeep (offsetOf input p) maxDepth)
  | .ok st => .ok (located input st 0).report

theorem scan_result (input : List Char) (maxDepth : Nat) :
    Bracket.scan input maxDepth = result input maxDepth (Bracket.walk maxDepth ⟨[], []⟩ input) := by
  rw [Bracket.scan]
  cases Bracket.walk maxDepth ⟨[], []⟩ input <;> rfl

theorem loop_scanRound (hinput : byteSize input ≤ limit) (st : Bracket.State) (h : dropBytes? input x = some s) :
    loop (scanRound limit input maxDepth) (located input st x) =
      pure (result input maxDepth (Bracket.walk maxDepth st s)) := by
  induction st, s using Bracket.walk.induct maxDepth generalizing x with
  | case1 st =>
      have hround : scanRound limit input maxDepth (located input st x) = _ := scanRound_end (peek_end h)
      rw [loop_done hround, Bracket.walk]
      rfl
  | case2 st r ih =>
      have hround : scanRound limit input maxDepth (located input st x) = _ := scanRound_escape hinput h
      rw [loop_again hround, Bracket.walk, if_pos rfl]
      exact ih (place_of_tail h r.tail_suffix)
  | case3 st c r hb hq hs =>
      have hround : scanRound limit input maxDepth (located input st x) = _ := scanRound_unterminated hinput h hb hq hs
      rw [loop_done hround, Bracket.walk, if_neg hb, if_pos hq, hs]
      rfl
  | case4 st c r hb hq v t hs ih =>
      have hround : scanRound limit input maxDepth (located input st x) = _ := scanRound_quoted hinput h hb hq hs
      rw [loop_again hround, Bracket.walk, if_neg hb, if_pos hq, hs]
      exact ih (place_of_tail h (Quoted.readBody_suffix hs))
  | case5 st c r hb hq t hs ih =>
      have hround : scanRound limit input maxDepth (located input st x) = _ :=
        scanRound_comment hinput h hb (by simpa using hq) hs
      rw [loop_again hround, Bracket.walk_comment hs]
      exact ih (place_of_suffix h (Blank.comment?_suffix hs))
  | case6 st c r hb hq hs hst =>
      have hq : isQuote c = false := by simpa using hq
      have hround : scanRound limit input maxDepth (located input st x) = _ := scanRound_meet hinput h hb hq hs
      rw [meet?_located h, hst] at hround
      rw [loop_done hround, Bracket.walk_step hb hq hs, hst, result, offsetOf_of_place h]
      rfl
  | case7 st c r hb hq hs st' hst ih =>
      have hq : isQuote c = false := by simpa using hq
      have hround : scanRound limit input maxDepth (located input st x) = _ := scanRound_meet hinput h hb hq hs
      rw [meet?_located h, hst] at hround
      rw [loop_again hround, Bracket.walk_step hb hq hs, hst]
      exact ih (place_cons h)

theorem scan_eq (hinput : byteSize input ≤ limit) (maxDepth : Nat) :
    scan limit input maxDepth = pure (Bracket.scan input maxDepth) := by
  have hstart : dropBytes? input 0 = some input := dropBytes?_append [] input
  rw [scan_result]
  exact loop_scanRound hinput ⟨[], []⟩ hstart

end SelectorSyntax.Text.Cursor
