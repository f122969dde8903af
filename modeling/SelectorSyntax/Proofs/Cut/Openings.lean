import SelectorSyntax.Proofs.Bracket.Machine
import SelectorSyntax.Proofs.Cut.Steps

namespace SelectorSyntax.Bracket

open Grammar Grammar.Expression Selector.Spelling Text CharClass

variable {d : Nat} {c o : Char} {cs k r s t u x y z : List Char} {os : List Mark} {st st' w : State} {ns : List Node}
  {ps : List (List Char × List Char)} {a b : List Char} {n : Node} {report : Report}

/-! The brackets that the scan has open at a cut. -/

/-- The marks in front of the place where `u` is left. -/
def marksBefore (u : List Char) (ms : List Mark) : List Mark := ms.filter fun m => u.length < m.place.length

/-- The brackets that the scan of a text has open where `u` is left, the innermost on top. -/
def openAt (u s : List Char) : List Mark := stack [] (marksBefore u (exposed s))

theorem Visits.suffix (h : Visits s u) : u <:+ s := by
  induction h with
  | here => exact List.suffix_rfl
  | @next s _ _ hp _ ih =>
      cases s with
      | nil => cases hp
      | cons c s => exact ih.trans ((piece?_suffix hp).trans (List.suffix_cons c s))

theorem marksBefore_cons {m : Mark} {ms : List Mark} (h : u.length < m.place.length) :
    marksBefore u (m :: ms) = m :: marksBefore u ms := List.filter_cons_of_pos (decide_eq_true h)

theorem marksBefore_of_le (h : s.length ≤ u.length) : marksBefore u (exposed s) = [] := by
  refine List.filter_eq_nil_iff.2 fun m hm => ?_
  have hle := (mem_exposed hm).2.2.length_le
  simp only [decide_eq_true_eq]
  omega

theorem exposed_visits (h : Visits s u) : exposed s = marksBefore u (exposed s) ++ exposed u := by
  induction h with
  | here => rw [marksBefore_of_le (Nat.le_refl _), List.nil_append]
  | @next s t u hp hv ih =>
      cases s with
      | nil => cases hp
      | cons c s =>
          rw [exposed_piece hp]
          by_cases hc : isBracket c = true
          · have hlt : u.length < (c :: s).length := Nat.lt_of_le_of_lt hv.suffix.length_le (piece?_length hp)
            rw [if_pos hc, marksBefore_cons hlt, List.cons_append, ← ih]
          · rw [if_neg hc, ← ih]

theorem settle_append (d : Nat) (st : State) (ms ns : List Mark) :
    settle d st (ms ++ ns) = (settle d st ms).bind fun st => settle d st ns := by
  induction ms generalizing st with
  | nil => rfl
  | cons m ms ih =>
      rw [List.cons_append, settle, settle]
      cases st.step? d m with
      | none => rfl
      | some st' => exact ih st'

/-- Where the scan gets to a place, the brackets open there are those on its stack. -/
theorem walk_openAt (hv : Visits s u) (h : walk d ⟨[], []⟩ s = .ok st) :
    ∃ strays, walk d ⟨openAt u s, strays⟩ u = .ok st := by
  have hms (m : Mark) (hm : m ∈ exposed s) : isBracket m.bracket = true := (mem_exposed hm).1
  rw [walk_eq_settle] at h
  have hfits : Fits d [] (exposed s) := by
    refine (scan_cases s d).resolve_right ?_
    rintro ⟨m, hm⟩
    cases h.symm.trans (settle_eq_error hms hm []).2
  have hpre : marksBefore u (exposed s) <+: exposed s := ⟨exposed u, (exposed_visits hv).symm⟩
  have hbefore : Fits d [] (marksBefore u (exposed s)) := fun before hb => hfits before (hb.trans hpre)
  rw [exposed_visits hv, settle_append, settle_eq_ok (fun m hm => hms m (hpre.subset hm)) hbefore] at h
  exact ⟨_, by rw [walk_eq_settle]; exact h⟩

theorem exposed_unit (hu : unit? s = some t) : exposed s = exposed t := by
  have hp := piece?_of_unit hu
  cases s with
  | nil => cases hu
  | cons c s =>
      rw [exposed_piece hp, if_neg]
      intro hc
      rcases bracket_cases hc with hc | ⟨o, ho⟩
      · rw [unit?_opener hc] at hu
        cases hu
      · rw [unit?_closer ho] at hu
        cases hu

theorem exposed_bracket (hc : isBracket c = true) (s : List Char) : exposed (c :: s) = ⟨c, c :: s⟩ :: exposed s := by
  rw [exposed_piece (piece?_bracket hc s), if_pos hc]

theorem marksBefore_bracket (hc : isBracket c = true) (h : u.length < (c :: s).length) :
    marksBefore u (exposed (c :: s)) = ⟨c, c :: s⟩ :: marksBefore u (exposed s) := by
  rw [exposed_bracket hc, marksBefore_cons h]

/-- Over balanced text nothing is left open but the pair around the cut. -/
theorem Balanced.stack_before (h : Balanced s t ps) (hps : ∀ p ∈ ps, ¬ (p.2.length ≤ u.length ∧ u.length < p.1.length))
    (os : List Mark) : stack os (marksBefore u (exposed s)) = stack os (marksBefore u (exposed t)) := by
  induction h generalizing os with
  | nil => rfl
  | unit hu _ ih => rw [exposed_unit hu, ih hps]
  | @group o c s t v ps qs ho hc hin hrest ihin ih =>
      obtain ⟨hps, hpair, hqs⟩ := List.forall_mem_append.1 hps |>.imp_right List.forall_mem_cons.1
      by_cases hu : u.length < (o :: s).length
      · have hclose : u.length < (c :: t).length := Nat.lt_of_not_le fun hle => hpair ⟨hle, hu⟩
        rw [marksBefore_bracket (isBracket_of_opener ho) hu, stack_cons, turn_opener ho, ihin hps,
          marksBefore_bracket (isBracket_of_closer hc) hclose, stack_cons, turn_matched hc, ih hqs]
      · have hle := hrest.suffix.length_le.trans (Nat.le_of_lt (Nat.lt_of_succ_le hin.suffix.length_le))
        rw [List.length_cons] at hu
        rw [marksBefore_of_le (by rw [List.length_cons]; omega), marksBefore_of_le (by omega)]

theorem exists_pair_of_openAt (h : Balanced s [] ps) (ho : openAt u s ≠ []) :
    ∃ p ∈ ps, p.2.length ≤ u.length ∧ u.length < p.1.length := by
  by_contra hn
  refine ho ?_
  rw [openAt, h.stack_before (fun p hp hcut => hn ⟨p, hp, hcut⟩) [], exposed_nil]
  rfl

theorem mem_familyOfAll_of_mem (h : n ∈ ns) : n ∈ Node.familyOfAll ns := by
  obtain ⟨as, bs, rfl⟩ := List.append_of_mem h
  refine Node.mem_familyOfAll_append.2 (Or.inr (List.mem_append_left _ ?_))
  cases n
  exact List.mem_cons_self

mutual

/-- The pairs are those of the bracketed nodes. -/
theorem exists_node_of_pairs : ∀ (n : Node), n.IsMatch → ∀ p ∈ n.pairs,
    ∃ m ∈ n.family, m.rule.isBracketed = true ∧ m.start = p.1 ∧ m.stop.length < p.2.length
  | ⟨r, s, t, ns⟩, h, p, hp => by
      rw [Node.pairs] at hp
      rcases List.mem_append.1 hp with hp | hp
      · obtain ⟨m, hm, hmp⟩ := exists_node_of_pairsOfAll ns (fun k hk => (h.child hk).2) p hp
        exact ⟨m, List.mem_cons_of_mem _ hm, hmp⟩
      · split at hp
        next hr =>
          obtain ⟨k, hk, rfl⟩ := List.mem_map.1 hp
          obtain ⟨hk, hcl⟩ := List.mem_filter.1 hk
          have hkm := (h.child hk).2
          have htakes : k.rule.takes = true := by
            unfold isCloser at hcl
            split at hcl
            next hk => rw [hk]; rfl
            next hk => rw [hk]; rfl
            next => cases hcl
          have hstop := (Ordered.encloses ns s t h.ordered (fun m hm => (h.child hm).2) k (mem_familyOfAll_of_mem hk)).2
          refine ⟨_, List.mem_cons_self, hr, rfl, ?_⟩
          exact Nat.lt_of_le_of_lt hstop.length_le (Rule.lawful_run.shorter htakes hkm.2)
        next => cases hp

theorem exists_node_of_pairsOfAll : ∀ (ns : List Node), (∀ n ∈ ns, n.IsMatch) → ∀ p ∈ Node.pairsOfAll ns,
    ∃ m ∈ Node.familyOfAll ns, m.rule.isBracketed = true ∧ m.start = p.1 ∧ m.stop.length < p.2.length
  | [], _, p, hp => by cases hp
  | n :: ns, h, p, hp => by
      rw [Node.pairsOfAll_cons] at hp
      rcases List.mem_append.1 hp with hp | hp
      · obtain ⟨m, hm, hmp⟩ := exists_node_of_pairs n (h n List.mem_cons_self) p hp
        exact ⟨m, List.mem_append_left _ hm, hmp⟩
      · obtain ⟨m, hm, hmp⟩ := exists_node_of_pairsOfAll ns (fun k hk => h k (List.mem_cons_of_mem n hk)) p hp
        exact ⟨m, List.mem_append_right _ hm, hmp⟩

end

/-- Where brackets are open in a text that is matched, the cut is between the brackets of a node. -/
theorem straddled_of_openAt (hn : n.IsMatch) (hb : Balanced s [] n.pairs) (ho : openAt u s ≠ []) :
    Straddled u [n] := by
  obtain ⟨p, hp, hle, hlt⟩ := exists_pair_of_openAt hb ho
  obtain ⟨m, hm, hr, hstart, hstop⟩ := exists_node_of_pairs n hn p hp
  refine ⟨m, by simpa [Node.familyOfAll] using hm, hr, Nat.lt_of_lt_of_le hstop hle, ?_⟩
  rwa [hstart]

/-! What the scan makes of a text that is cut, or has a closer too many. -/

theorem crosses_replace (hk : Mute k) (h : Balanced (x ++ t) (y ++ t) ps) :
    ∃ n, Crosses (x ++ t) (y ++ t) n ∧ Crosses (x ++ k) (y ++ k) n := by
  generalize hx : x ++ t = s at h
  generalize hy : y ++ t = u at h
  induction h generalizing x y with
  | nil =>
      obtain rfl := eq_of_append_eq (hx.trans hy.symm)
      exact ⟨0, (Passes.refl _).crosses, (Passes.refl _).crosses⟩
  | unit hu hb ih =>
      subst hx hy
      obtain ⟨v, rfl⟩ := exists_append_of_suffix hb.suffix
      obtain ⟨n, hn, hkn⟩ := ih rfl rfl
      have hu' := unit?_replace (guards_mute hk) trivial hu
      exact ⟨_, (passes_unit hu).crosses.trans hn, (passes_unit hu').crosses.trans hkn⟩
  | @group o c s z u _ _ ho hc hin hb ihin ih =>
      subst hy
      obtain ⟨v, rfl⟩ := exists_append_of_suffix hb.suffix
      obtain ⟨w, rfl⟩ := exists_append_of_suffix (v := c :: v) hin.suffix
      obtain rfl : x = o :: w := eq_of_append_eq hx
      obtain ⟨n, hn, hkn⟩ := ihin (x := w) (y := c :: v) rfl rfl
      obtain ⟨m, hm, hkm⟩ := ih rfl rfl
      exact ⟨_, (hn.enclose ho hc).trans hm, (hkn.enclose ho hc).trans hkm⟩

theorem walk_replace (hk : Mute k) (h : Balanced (x ++ t) (y ++ t) ps) (hd : st.opened.length ≤ d)
    (hst : st'.opened.length = st.opened.length) (hw : walk d st (x ++ t) = .ok w) :
    walk d st (y ++ t) = .ok w ∧ walk d st' (x ++ k) = walk d st' (y ++ k) := by
  obtain ⟨n, hn, hkn⟩ := crosses_replace hk h
  obtain ⟨hdeep, hw'⟩ := hn.of_ok hd hw
  have hcross := hkn d st' (hst ▸ hd)
  rw [if_pos (hst ▸ hdeep)] at hcross
  exact ⟨hw', hcross⟩

/-- Other text in the place of what is behind the cut leaves as many brackets open in front of it. -/
theorem Unclosed.walk_replace (h : Unclosed (x ++ u) u cs) (hk : Mute k) (hd : st.opened.length ≤ d)
    (hst : st'.opened.length = st.opened.length) (hw : walk d st (x ++ u) = .ok w) :
    ∃ os, walk d st' (x ++ k) = walk d ⟨os, st'.strays⟩ k ∧ os.length = st.opened.length + cs.length := by
  generalize hs : x ++ u = s at h
  induction h generalizing x st st' with
  | balanced h =>
      subst hs
      exact ⟨st'.opened, (Bracket.walk_replace (y := []) hk h hd hst hw).2, by rw [hst]; rfl⟩
  | @opener s o c r u ps cs h ho hc hr ih =>
      subst hs
      obtain ⟨y, rfl⟩ := exists_append_of_suffix (v := []) hr.suffix
      obtain ⟨hin, hcross⟩ := Bracket.walk_replace (y := o :: y) hk h hd hst hw
      rw [List.cons_append, walk_open ho] at hin
      split at hin
      next => cases hin
      next hlt =>
        have hroom : (State.opened ⟨⟨o, o :: (y ++ u)⟩ :: st.opened, st.strays⟩).length ≤ d := Nat.lt_of_not_le hlt
        have hpushed : (State.opened ⟨⟨o, o :: (y ++ k)⟩ :: st'.opened, st'.strays⟩).length =
            (State.opened ⟨⟨o, o :: (y ++ u)⟩ :: st.opened, st.strays⟩).length := congrArg Nat.succ hst
        obtain ⟨os, hos, hlen⟩ := ih hroom hpushed hin rfl
        refine ⟨os, ?_, ?_⟩
        · rw [hcross, List.cons_append, walk_open ho, if_neg (hst ▸ hlt), hos]
        · rw [hlen, List.length_append, List.length_cons, List.length_singleton]
          omega

theorem walk_nil (st : State) : walk d st [] = .ok st := by rw [walk]

theorem scan_of_walk (h : walk d ⟨[], []⟩ s = .ok st) : scan s d =
    .ok ⟨(st.opened.map (Mark.locate s)).reverse, (st.strays.map (Mark.locate s)).reverse⟩ := by rw [scan, h]

/-- The brackets that are open at the cut are not closed without what is behind that. -/
theorem Unclosed.scan (h : Unclosed (x ++ u) u cs) (hcs : cs ≠ []) (hs : scan (x ++ u) d = .ok report) :
    ∃ report, Bracket.scan x d = .ok report ∧ report.unclosed ≠ [] := by
  obtain ⟨w, hw⟩ := walk_of_scan hs
  obtain ⟨os, hos, hlen⟩ := h.walk_replace Detached.nil.mute (Nat.zero_le d) rfl hw
  rw [List.append_nil, walk_nil] at hos
  refine ⟨_, scan_of_walk hos, fun hnil => hcs ?_⟩
  obtain rfl : os = [] := by simpa using hnil
  exact List.length_eq_zero_iff.1 (by simpa using hlen.symm)

theorem exists_openerOf (hc : c ∈ [')', ']']) : ∃ o, openerOf? c = some o := by
  rcases List.mem_pair.1 hc with rfl | rfl
  · exact ⟨_, rfl⟩
  · exact ⟨_, rfl⟩

/-- A closer behind a text whose brackets are in pairs has no opener. -/
theorem scan_stray (h : Balanced s [] ps) (hc : c ∈ [')', ']']) (hs : scan s d = .ok report) :
    scan (s ++ [c]) d = .ok ⟨[], [(Place.byteSize s, c)]⟩ := by
  obtain ⟨w, hw⟩ := walk_of_scan hs
  obtain ⟨o, ho⟩ := exists_openerOf hc
  have hdetached := detached_closer ho
  have hcross : walk d ⟨[], []⟩ (s ++ [c]) = walk d ⟨[], []⟩ ([] ++ [c]) :=
    (walk_replace (t := []) hdetached.mute (by simpa using h) (Nat.zero_le d) rfl (by simpa using hw)).2
  have hend : walk d ⟨[], []⟩ [c] = .ok ⟨[], [⟨c, [c]⟩]⟩ := by
    rcases List.mem_pair.1 hc with rfl | rfl
    · rw [walk_step (by decide) rfl rfl]
      exact walk_nil _
    · rw [walk_step (by decide) rfl rfl]
      exact walk_nil _
  rw [List.nil_append] at hcross
  rw [scan_of_walk (hcross.trans hend)]
  simp [Mark.locate, Place.offsetOf_append]

end SelectorSyntax.Bracket
