import SelectorSyntax.Proofs.Bracket.Pairs

namespace SelectorSyntax.Bracket

open Grammar Grammar.Expression Selector.OfNodes Text CharClass

/-- The opener that a step took from the open ones, with the mark at which it did. -/
def State.popped (st st' : State) (m : Mark) : List (Mark × Mark) :=
  if st'.opened.length < st.opened.length then (st.opened.take 1).map fun o => (o, m) else []

/-- The walk with a record of the brackets that it pops. -/
def record (maxDepth : Nat) (st : State) (s : List Char) : Except (List Char) (State × List (Mark × Mark)) :=
  match s with
  | [] => .ok (st, [])
  | c :: r =>
    if c = '\\' then record maxDepth st r.tail
    else if isQuote c then
      match _h : Quoted.readBody c r with
      | none => .ok (st, [])
      | some (_, t) => record maxDepth st t
    else match _h : Blank.comment? (c :: r) with
      | some t => record maxDepth st t
      | none =>
        match st.step? maxDepth ⟨c, c :: r⟩ with
        | none => .error (c :: r)
        | some st' => (record maxDepth st' r).map fun (x, ps) => (x, st.popped st' ⟨c, c :: r⟩ ++ ps)
termination_by s.length
decreasing_by
  · exact Nat.lt_succ_of_le (List.length_tail ▸ Nat.sub_le _ _)
  · exact Nat.lt_succ_of_lt (Quoted.readBody_length _h)
  · exact Blank.comment?_length _h
  · exact Nat.lt_succ_self _

def places (ps : List (Mark × Mark)) : List (List Char × List Char) := ps.map fun (o, c) => (o.place, c.place)

def offsets (text : List Char) (ps : List (List Char × List Char)) : List (Nat × Nat) :=
  ps.map fun (o, c) => (Place.offsetOf text o, Place.offsetOf text c)

/-- The offsets of the openers and the closers that the scan of a text pushes and pops, in the order in
which it pops them. -/
def scanPairs (text : List Char) (maxDepth : Nat) : Except (List Char) (List (Nat × Nat)) :=
  (record maxDepth ⟨[], []⟩ text).map fun (_, ps) => offsets text (places ps)

variable {d : Nat} {st x : State} {c o : Char} {s t : List Char} {ps : List (Mark × Mark)}

/-- Recording changes nothing about the walk. -/
theorem record_fst (d : Nat) (st : State) (s : List Char) : (record d st s).map Prod.fst = walk d st s := by
  fun_induction walk d st s with
  | case1 st => rw [record]; rfl
  | case2 st r ih =>
      rw [record, if_pos rfl, ih]
  | case3 st c r hb hq h =>
      rw [record, if_neg hb, if_pos hq, h]
      rfl
  | case4 st c r hb hq v t h ih =>
      rw [record, if_neg hb, if_pos hq, h]
      exact ih
  | case5 st c r hb hq t h ih =>
      rw [record, if_neg hb, if_neg hq, h]
      exact ih
  | case6 st c r hb hq h hs =>
      rw [record, if_neg hb, if_neg hq, h, hs]
      rfl
  | case7 st c r hb hq h st' hs ih =>
      rw [record, if_neg hb, if_neg hq, h]
      simp only [hs]
      rw [← ih]
      cases record d st' r <;> rfl

theorem record_step (hb : c ≠ '\\') (hq : isQuote c = false) (hc : Blank.comment? (c :: s) = none) :
    record d st (c :: s) =
      match st.step? d ⟨c, c :: s⟩ with
      | none => .error (c :: s)
      | some st' => (record d st' s).map fun (x, ps) => (x, st.popped st' ⟨c, c :: s⟩ ++ ps) := by
  rw [record, if_neg hb, if_neg (by simp [hq]), hc]

theorem State.popped_eq_nil {st st' : State} {m : Mark} (h : st.opened.length ≤ st'.opened.length) :
    st.popped st' m = [] := if_neg (Nat.not_lt.2 h)

theorem map_append_nil (x : Except (List Char) (State × List (Mark × Mark))) :
    (x.map fun (y, ps) => (y, [] ++ ps)) = x := by
  cases x <;> rfl

/-- A piece without brackets leaves no trace. -/
theorem record_unit (h : unit? s = some t) : record d st s = record d st t := by
  rcases unit?_cases h with ⟨ns, h⟩ | ⟨c, -, rfl⟩ | h | ⟨c, hc, hcm, rfl⟩
  · obtain ⟨v, hv, -⟩ := Quoted.run_string_iff_read.1 ⟨ns, h⟩
    cases s with
    | nil => cases hv
    | cons q s =>
        rw [Quoted.read] at hv
        split at hv
        next hq =>
          have hb : q ≠ '\\' := by
            rintro rfl
            cases hq
          rw [record, if_neg hb, if_pos hq, hv]
        next => cases hv
  · rw [record, if_pos rfl, List.tail_cons]
  · cases s with
    | nil => cases h
    | cons c s =>
        have hc : c = '/' := by
          by_contra hc
          rw [comment?_eq_none hc] at h
          cases h
        subst hc
        rw [record, if_neg (by decide), if_neg (by decide), h]
  · simp only [isPlain, Bool.not_eq_true', Bool.or_eq_false_iff, decide_eq_false_iff_not,
      Option.isSome_eq_false_iff, Option.isNone_iff_eq_none] at hc
    obtain ⟨⟨⟨hq, hb⟩, ho⟩, hcl⟩ := hc
    rw [record_step hb hq hcm, State.step?, if_neg (by simp [ho])]
    simp only [hcl]
    rw [State.popped_eq_nil (Nat.le_refl _), map_append_nil]

theorem record_open (h : isOpener c = true) :
    record d st (c :: s) =
      if d ≤ st.opened.length then .error (c :: s)
      else record d { st with opened := ⟨c, c :: s⟩ :: st.opened } s := by
  have hstep : record d st (c :: s) = match st.step? d ⟨c, c :: s⟩ with
      | none => .error (c :: s)
      | some st' => (record d st' s).map fun (x, ps) => (x, st.popped st' ⟨c, c :: s⟩ ++ ps) := by
    rcases opener_cases h with rfl | rfl <;> exact record_step (by decide) (by decide) rfl
  rw [hstep, State.step?, if_pos h]
  by_cases hd : d ≤ st.opened.length
  · rw [if_pos hd, if_pos hd]
  · rw [if_neg hd, if_neg hd]
    simp only
    rw [State.popped_eq_nil (Nat.le_succ _), map_append_nil]

theorem record_close {m : Mark} {os strays : List Mark} (h : openerOf? c = some o) (hm : m.bracket = o) :
    record d ⟨m :: os, strays⟩ (c :: s) =
      (record d ⟨os, strays⟩ s).map fun (x, ps) => (x, (m, ⟨c, c :: s⟩) :: ps) := by
  have hstep : record d ⟨m :: os, strays⟩ (c :: s) = match State.step? d ⟨m :: os, strays⟩ ⟨c, c :: s⟩ with
      | none => .error (c :: s)
      | some st' =>
        (record d st' s).map fun (x, ps) => (x, State.popped ⟨m :: os, strays⟩ st' ⟨c, c :: s⟩ ++ ps) := by
    rcases closer_cases h with ⟨-, rfl⟩ | ⟨-, rfl⟩ <;> exact record_step (by decide) (by decide) rfl
  rw [hstep, State.step?, if_neg (by simp [isOpener_of_closer h])]
  simp only [h, State.close, hm, if_true]
  have hp : State.popped ⟨m :: os, strays⟩ ⟨os, strays⟩ ⟨c, c :: s⟩ = [(m, ⟨c, c :: s⟩)] :=
    if_pos (Nat.lt_succ_self _)
  rw [hp]
  rfl

/-- Over balanced text exactly its pairs are recorded, and what was open before it is open behind it. -/
theorem Balanced.record {pairs : List (List Char × List Char)} (h : Balanced s t pairs)
    (hr : record d st s = .ok (x, ps)) :
    ∃ qs, Bracket.record d st t = .ok (x, qs) ∧ places ps = pairs ++ places qs := by
  induction h generalizing st x ps with
  | nil => exact ⟨ps, hr, rfl⟩
  | unit hu _ ih =>
      rw [record_unit hu] at hr
      exact ih hr
  | @group o c s t u inner outer ho hc _ _ ihin ih =>
      rw [record_open ho] at hr
      split at hr
      next => cases hr
      next =>
        obtain ⟨qs, hq, hin⟩ := ihin hr
        rw [record_close hc rfl] at hq
        obtain ⟨⟨y, rs⟩, hy, hx⟩ := map_eq_ok.1 hq
        cases hx
        obtain ⟨ls, hl, hout⟩ := ih hy
        refine ⟨ls, hl, ?_⟩
        rw [hin, places, List.map_cons, ← places, hout, List.append_assoc, List.cons_append]

/-- A match of a whole text leaves nothing of it. -/
theorem eq_nil_of_run {r : Rule} {ns : List Node} (hr : r = .selectors ∨ r = .text)
    (h : r.run s = some (t, ns)) : t = [] := by
  obtain ⟨e, f, g, hb⟩ : ∃ e f g, body r = seqs [e, f, g, call .endOfInput] := by
    rcases hr with rfl | rfl <;> exact ⟨_, _, _, rfl⟩
  obtain ⟨ms, hm, -⟩ := Rule.run_eq_some.1 h
  rw [hb] at hm
  obtain ⟨_, _, _, _, h₁, _⟩ := run_seq_eq_some.1 hm
  obtain ⟨_, _, _, _, h₂, _⟩ := run_seq_eq_some.1 h₁
  obtain ⟨_, _, _, _, h₃, _⟩ := run_seq_eq_some.1 h₂
  exact (Rule.run_endOfInput_eq_some.1 h₃).2.1

/-- Where a whole text is accepted, the scan finds its brackets in pairs, and they are the pairs that were
matched. -/
theorem scan_of_matchRoot {r : Rule} {input : List Char} {root : Node} (hr : r = .selectors ∨ r = .text)
    (h : matchRoot r input d = .ok root) :
    ∃ report, scan input d = .ok report ∧ report.isBalanced = true ∧
      scanPairs input d = .ok (offsets input root.pairs) := by
  obtain ⟨⟨report, hscan⟩, t, hrun⟩ := matchRoot_eq_ok h
  obtain rfl := eq_nil_of_run hr hrun
  have hp : Paired input [] [root] := by
    apply paired_of_run r input _ _ _ hrun <;> rcases hr with rfl | rfl <;> trivial
  obtain ⟨x, hw⟩ := walk_of_scan hscan
  rw [← record_fst] at hw
  obtain ⟨⟨y, ps⟩, hrec, rfl⟩ := map_eq_ok.1 hw
  obtain ⟨qs, hq, hps⟩ := hp.balanced.record hrec
  rw [Bracket.record] at hq
  cases hq
  have hplaces : places ps = root.pairs := by simpa [places] using hps
  refine ⟨⟨[], []⟩, ?_, rfl, ?_⟩
  · rw [scan, ← record_fst, hrec]
    rfl
  · rw [scanPairs, hrec, ← hplaces]
    simp [Except.map, offsets, places]

/-- A text is accepted only with its brackets in pairs, and the scan, which knows nothing of the grammar,
pops the very pairs that the grammar matched. -/
theorem pairs_of_parse (input : List Char) (d : Nat) :
    (∀ list, parseSelectorList input d = .ok list → ∃ root report, matchRoot .selectors input d = .ok root ∧
      scan input d = .ok report ∧ report.isBalanced = true ∧
      scanPairs input d = .ok (offsets input root.pairs)) ∧
    ∀ v, parseTextFragment input d = .ok v → ∃ root report, matchRoot .text input d = .ok root ∧
      scan input d = .ok report ∧ report.isBalanced = true ∧
      scanPairs input d = .ok (offsets input root.pairs) := by
  constructor
  · intro list h
    obtain ⟨root, hm, -⟩ := parseSelectorList_eq_ok h
    obtain ⟨report, hs⟩ := scan_of_matchRoot (Or.inl rfl) hm
    exact ⟨root, report, hm, hs⟩
  · intro v h
    obtain ⟨root, -, hm, -⟩ := parseTextFragment_eq_ok h
    obtain ⟨report, hs⟩ := scan_of_matchRoot (Or.inr rfl) hm
    exact ⟨root, report, hm, hs⟩

/-- A bracket that an escape makes part of a name is in no pair. -/
theorem pairs_of_parse_escaped :
    (∃ list, parseSelectorList "\\([b]:nth-col(n)".toList 1 = .ok list) ∧
      scanPairs "\\([b]:nth-col(n)".toList 1 = .ok [(2, 4), (13, 15)] ∧
      ∃ root, matchRoot .selectors "\\([b]:nth-col(n)".toList 1 = .ok root ∧
        offsets "\\([b]:nth-col(n)".toList root.pairs = [(2, 4), (13, 15)] := by
  have hlist : parseSelectorList "\\([b]:nth-col(n)".toList 1 = .ok
      [⟨⟨some "(", [.attribute ⟨"b", none⟩, .pseudoClass ⟨"nth-col", some (.text "n")⟩], []⟩, []⟩] := by cbv
  have hscan : scanPairs "\\([b]:nth-col(n)".toList 1 = .ok [(2, 4), (13, 15)] := by cbv
  obtain ⟨root, report, hroot, -, -, hpairs⟩ := (pairs_of_parse "\\([b]:nth-col(n)".toList 1).1 _ hlist
  refine ⟨⟨_, hlist⟩, hscan, root, hroot, ?_⟩
  rw [hscan] at hpairs
  exact (Except.ok.inj hpairs).symm

end SelectorSyntax.Bracket
