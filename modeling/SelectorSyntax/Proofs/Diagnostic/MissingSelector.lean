import SelectorSyntax.Proofs.Diagnostic.Located
import SelectorSyntax.Proofs.Diagnostic.Outermost

namespace SelectorSyntax.Selector.Spelling

open Relation Grammar Expression Text SelectorSyntax.Bracket Diagnostic

/-- The text is at its end, or something begins that separates compounds. -/
def Separated (p : List Char) : Prop := p = [] ∨ ∃ w ∈ "," :: symbols, w.toList <+: p

/-- The characters that what separates compounds begins with. -/
def separators : List Char := [',', '|', '>', '+', '~']

variable {e : Expression} {q r : Rule} {s v w y p : List Char} {n : Nat}

theorem Separated.head (h : Separated p) : ∀ c t, p = c :: t → c ∈ separators := by
  rintro c t rfl
  rcases h with h | ⟨w, hw, x, hx⟩
  · cases h
  · have hall : ∀ w ∈ "," :: symbols, ∃ c t, w.toList = c :: t ∧ c ∈ separators := by
      simp only [symbols, List.forall_mem_cons, List.not_mem_nil, false_imp_iff, implies_true, and_true]
      exact ⟨⟨_, _, rfl, by decide⟩, ⟨_, _, rfl, by decide⟩, ⟨_, _, rfl, by decide⟩, ⟨_, _, rfl, by decide⟩,
        ⟨_, _, rfl, by decide⟩⟩
    obtain ⟨d, z, hd, hmem⟩ := hall w hw
    rw [hd] at hx
    cases hx
    exact hmem

theorem Separated.settled (h : Separated p) : Blank.Settled p := by
  cases p with
  | nil => exact Blank.settled_iff.2 Blank.skip_nil
  | cons c t => exact settled_of_mem separators rfl (h.head c t rfl) t

theorem run_separated_none (he : e.takes = true)
    (hb : separators.all (fun c => !e.begins c (Rule.begins c)) = true) (hp : Separated p) :
    e.run Rule.run p = none := by
  cases p with
  | nil => exact run_nil_eq_none he
  | cons c t => exact run_eq_none_of_begins t he (by simpa using List.all_eq_true.1 hb c (hp.head c t rfl))

/-! A failure is no farther on than the end of any compound. -/

theorem consumes_compound (h : (call .compoundSelector).Consumes w y) :
    (body .compoundSelector).Calls w .idSelector y ∧ simpleSelector.run Rule.run y = none := by
  rcases consumes_choice.1 (consumes_call.1 h) with h | ⟨hn, h⟩
  · obtain ⟨x, hx, hs⟩ := consumes_seq.1 h
    obtain ⟨hr, hend⟩ := (consumes_star rfl).1 hs
    exact ⟨.left (calls_seq_consumes.2 (Or.inr ⟨x, hx, calls_star.2 ⟨y, hr, .left .call⟩⟩)), hend⟩
  · obtain ⟨x, hx, hs⟩ := consumes_seq.1 h
    obtain ⟨hr, hend⟩ := (consumes_star rfl).1 hs
    exact ⟨.right hn (calls_seq_consumes.2 (Or.inr ⟨x, hx, calls_star.2 ⟨y, hr, .left .call⟩⟩)), hend⟩

theorem left_le_of_consumes (h : Reach .selectors s .compoundSelector w)
    (hy : (call .compoundSelector).Consumes w y) : (Rule.selectors.attempts s).left ≤ y.length := by
  obtain ⟨hc, hn⟩ := consumes_compound hy
  exact Rule.left_attempts_le (h.tail hc) rfl nofun (run_choices_eq_none.1 hn _ List.mem_cons_self)

theorem left_le_of_compound (h : Reach .selectors s .compoundSelector w) :
    (Rule.selectors.attempts s).left ≤ w.length := by
  cases hrun : Rule.compoundSelector.run w with
  | none => exact Rule.left_attempts_le h rfl nofun hrun
  | some x =>
      have hx : (call .compoundSelector).Consumes w x.1 := ⟨x.2, hrun⟩
      exact Nat.le_trans (left_le_of_consumes h hx) hx.suffix.length_le

/-- A rule that a compound calls is tried at its start or in front of where it ends. -/
theorem calls_compound (h : (body .compoundSelector).Calls w r p) :
    p = w ∨ ∃ y, (call .compoundSelector).Consumes w y ∧ y <:+ p := by
  have hsimple {z : List Char} (h : simpleSelector.Calls z r p) : p = z := by
    rcases calls_choice.1 h with h | ⟨-, h⟩
    · exact (calls_call.1 h).2
    rcases calls_choice.1 h with h | ⟨-, h⟩
    · exact (calls_call.1 h).2
    rcases calls_choice.1 h with h | ⟨-, h⟩
    · exact (calls_call.1 h).2
    rcases calls_choice.1 h with h | ⟨-, h⟩
    · exact (calls_call.1 h).2
    · exact (calls_call.1 h).2
  have hsimples {x : List Char} (h : (star simpleSelector).Calls x r p) :
      ∃ y, (star simpleSelector).Consumes x y ∧ y <:+ p := by
    obtain ⟨z, hz, h⟩ := calls_star.1 h
    obtain rfl := hsimple h
    obtain ⟨y, hy⟩ : ∃ y, (star simpleSelector).Consumes p y := ⟨_, _, rfl⟩
    obtain ⟨hr, hend⟩ := (consumes_star rfl).1 hy
    exact ⟨y, (consumes_star rfl).2 ⟨hz.trans hr, hend⟩, hy.suffix⟩
  rcases calls_choice.1 h with h | ⟨hn, h⟩
  · rcases calls_seq_consumes.1 h with h | ⟨x, hx, h⟩
    · exact Or.inl (calls_call.1 h).2
    · obtain ⟨y, hy, hp⟩ := hsimples h
      exact Or.inr ⟨y, consumes_call.2 (consumes_choice.2 (Or.inl (consumes_seq.2 ⟨x, hx, hy⟩))), hp⟩
  · rcases calls_seq_consumes.1 h with h | ⟨x, hx, h⟩
    · exact Or.inl (hsimple h)
    · obtain ⟨y, hy, hp⟩ := hsimples h
      exact Or.inr ⟨y, consumes_call.2 (consumes_choice.2 (Or.inr ⟨hn, consumes_seq.2 ⟨x, hx, hy⟩⟩)), hp⟩

/-! Where the place of a failure is. -/

section Failure

variable (hl : (Rule.selectors.attempts s).left = p.length)

include hl

/-- Behind a compound no combinator begins: the compound behind it would have been tried farther on. -/
theorem combinator_none (hw : Reach .selectors s .complexSelector w) (hp : BehindCompound w p) :
    Blank.Settled p ∧ Rule.combinatorSymbol.run p = none := by
  have hnone (t : List Char) : ¬ (call .combinator).Consumes p t := by
    intro ht
    have hle := left_le_of_compound (reach_compoundSelector.2 (Or.inr ⟨w, p, hw, hp, ht⟩))
    exact absurd (ht.shorter rfl) (by omega)
  have hsymbol : Rule.combinatorSymbol.run (Blank.skip p) = none := by
    cases hrun : Rule.combinatorSymbol.run (Blank.skip p) with
    | none => rfl
    | some x => exact absurd (consumes_combinator.2 (Or.inl ⟨x.1, ⟨x.2, hrun⟩, rfl⟩)) (hnone _)
  have hsettled : Blank.Settled p := by
    by_contra hs
    exact hnone _ (consumes_combinator.2 (Or.inr ⟨hsymbol, hs, rfl⟩))
  exact ⟨hsettled, hsettled.skip_eq ▸ hsymbol⟩

/-- Where selectors are wanted one is required, or one has just ended. -/
theorem required_or_ended (hr : r ∈ [Rule.selectorList, .complexSelector, .compoundSelector, .typeSelector,
      .idSelector, .classSelector, .attributeSelector, .pseudoClass, .pseudoElement])
    (h : Reach .selectors s r p) : Required s p ∨
      ∃ w y, Reach .selectors s .complexSelector w ∧ BehindCompound w y ∧
        Rule.combinatorSymbol.run (Blank.skip y) = none ∧ p = Blank.skip y := by
  have hinside (hr : r ∈ [Rule.typeSelector, .idSelector, .classSelector, .attributeSelector, .pseudoClass,
      .pseudoElement]) : ∃ w, Reach .selectors s .compoundSelector w ∧ (body .compoundSelector).Calls w r p := by
    have hcallers : ∀ r ∈ [Rule.typeSelector, .idSelector, .classSelector, .attributeSelector, .pseudoClass,
        .pseudoElement], r ≠ .selectors ∧
          ∀ p' ∈ callers r, p' = .compoundSelector ∨ p' ≠ .selectors ∧ callers p' = [] := by decide
    exact reach_of_callers h (hcallers r hr).1 (hcallers r hr).2
  rcases List.mem_cons.1 hr with rfl | hr
  · exact Or.inl (reach_selectorList.1 h ▸ .start)
  rcases List.mem_cons.1 hr with rfl | hr
  · exact Or.inl (required_of_reach h)
  rcases List.mem_cons.1 hr with rfl | hr
  · exact required_or_behind h
  obtain ⟨w, hw, hc⟩ := hinside hr
  rcases calls_compound hc with rfl | ⟨y, hy, hp⟩
  · exact required_or_behind hw
  obtain rfl : y = p := hp.eq_of_length_le (hl ▸ left_le_of_consumes hw hy)
  refine Or.inr ?_
  obtain ⟨x, hx, hbehind⟩ : ∃ x, Reach .selectors s .complexSelector x ∧ BehindCompound x y := by
    rcases reach_compoundSelector.1 hw with hw | ⟨x, z, hx, ⟨k, hk, hz⟩, hwz⟩
    · exact ⟨w, hw, y, hy, .refl⟩
    · exact ⟨x, hx, k, hk, hz.tail (consumes_seq.2 ⟨w, hwz, hy⟩)⟩
  obtain ⟨hs, hn⟩ := combinator_none hl hx hbehind
  exact ⟨x, y, hx, hbehind, by rwa [hs.skip_eq], hs.skip_eq.symm⟩

end Failure

/-- Where a compound has ended and no other can follow, the list has ended too, and so has the text unless there is
something that cannot stand in it. -/
theorem ended_of_behind (hsel : Rule.selectors.run s = none)
    (hl : (Rule.selectors.attempts s).left = (Blank.skip y).length)
    (hw : Reach .selectors s .complexSelector w) (hy : BehindCompound w y)
    (hn : Rule.combinatorSymbol.run (Blank.skip y) = none) (hc : Rule.compoundSelector.run (Blank.skip y) = none) :
    Reach .selectors s .endOfInput (Blank.skip y) ∧ Blank.skip y ≠ [] ∧ ∀ t, Blank.skip y ≠ ',' :: t := by
  have hlink : link.run Rule.run y = none := by
    refine run_seq_eq_none.2 ?_
    cases hrun : (call .combinator).run Rule.run y with
    | none => exact Or.inl rfl
    | some u =>
        refine Or.inr ⟨u.1, u.2, rfl, ?_⟩
        rcases consumes_combinator.1 ⟨u.2, hrun⟩ with ⟨v, hv, -⟩ | ⟨-, -, hu⟩
        · exact absurd hv (not_consumes hn)
        · rw [hu]
          exact hc
  have hbehind : BehindComplex s y := behindComplex_of_reach hw (hy.consumes hlink)
  have hcomma (t : List Char) : Blank.skip y ≠ ',' :: t := by
    intro ht
    have hreach := reach_complexSelector.2 (Or.inr ⟨y, t, hbehind, ht, rfl⟩)
    have hle := left_le_of_compound (reach_compoundSelector.2 (Or.inl hreach))
    have hskip := (Blank.skip_suffix t).length_le
    rw [ht, List.length_cons] at hl
    omega
  have hlist := hbehind.consumes (run_alternative_none hcomma)
  refine ⟨.call (calls_blanks.2 (calls_seq_consumes.2 (Or.inr ⟨y, hlist, calls_blanks.2 .call⟩))) .here, ?_, hcomma⟩
  intro hnil
  have hall : (call .selectors).Consumes s [] := by
    refine consumes_call.2 (consumes_seq.2 ⟨_, consumes_blanks.2 rfl, consumes_seq.2 ⟨y, hlist, ?_⟩⟩)
    exact consumes_seq.2 ⟨[], consumes_blanks.2 hnil.symm, [_], rfl⟩
  exact hall.ne_none hsel

/-! What is reported where a required compound is missing. -/

section Missing

variable (hp : Separated p)

include hp

theorem run_compound_none : Rule.compoundSelector.run p = none :=
  run_separated_none (e := call .compoundSelector) rfl rfl hp

theorem run_complex_none : Rule.complexSelector.run p = none :=
  Rule.run_eq_none.2 (run_seq_eq_none.2 (Or.inl (run_compound_none hp)))

theorem run_list_none : Rule.selectorList.run p = none :=
  Rule.run_eq_none.2 (run_seq_eq_none.2 (Or.inl (run_complex_none hp)))

theorem counts_simple : simpleSelector.Counts p 5 := by
  have hmarked {r : Rule} {e f : Expression} (hb : body r = seq e f) (hs : r.isSilent = false) (he : e.callFree = true)
      (htakes : e.takes = true) (hbegins : separators.all (fun c => !e.begins c (Rule.begins c)) = true) :
      (call r).run Rule.run p = none ∧ (call r).Counts p 1 := by
    have hnone := run_separated_none htakes hbegins hp
    have hrun : r.run p = none := Rule.run_eq_none.2 (hb ▸ run_seq_eq_none.2 (Or.inl hnone))
    exact ⟨hrun, (blames_idle hs hrun (hb ▸ idle_seq he hnone)).counts⟩
  obtain ⟨hid, cid⟩ := hmarked (r := .idSelector) rfl rfl rfl rfl rfl
  obtain ⟨hclass, cclass⟩ := hmarked (r := .classSelector) rfl rfl rfl rfl rfl
  obtain ⟨hattribute, cattribute⟩ := hmarked (r := .attributeSelector) rfl rfl rfl rfl rfl
  obtain ⟨helement, celement⟩ := hmarked (r := .pseudoElement) rfl rfl rfl rfl rfl
  obtain ⟨-, cpseudo⟩ := hmarked (r := .pseudoClass) rfl rfl rfl rfl rfl
  exact .choice cid hid (.choice cclass hclass (.choice cattribute hattribute (.choice celement helement cpseudo)))

/-- Of all that a compound may begin with nothing is reported but the compound. -/
theorem blames_compound : (call .compoundSelector).Blames p .compoundSelector := by
  have huniversal : Rule.universal.run p = none := run_separated_none (e := call .universal) rfl rfl hp
  have hident : Rule.ident.run p = none := run_separated_none (e := call .ident) rfl rfl hp
  have htype : Rule.typeSelector.run p = none := run_separated_none (e := call .typeSelector) rfl rfl hp
  have hsimple : simpleSelector.run Rule.run p = none := run_separated_none rfl rfl hp
  have hname : (body .typeSelector).Counts p 2 :=
    .choice (blames_idle rfl huniversal (idle_callFree rfl p)).counts huniversal
      (blames_idle rfl hident (idle_callFree rfl p)).counts
  have hcounts : (body .compoundSelector).Counts p 6 :=
    .choice (.seq (hname.blames (by decide) rfl htype).counts htype) (run_seq_eq_none.2 (Or.inl htype))
      (.seq (counts_simple hp) hsimple)
  exact hcounts.blames (by decide) rfl (run_compound_none hp)

theorem blames_complex : (call .complexSelector).Blames p .compoundSelector :=
  .call (.seq (blames_compound hp) (run_compound_none hp)) rfl (run_complex_none hp)

theorem blames_list : (call .selectorList).Blames p .compoundSelector :=
  .call (.seq (blames_complex hp) (run_complex_none hp)) rfl (run_list_none hp)

end Missing

/-- What is reported inside the list stays so where the list ends before. -/
theorem reports_root (h : (call .selectorList).Reports (Blank.skip s) n q)
    (hy : (call .selectorList).Consumes (Blank.skip s) y) (hn : n < (Blank.skip y).length) :
    (call .selectors).Reports s n q := by
  have hys := hy.suffix.length_le
  have hskip := (Blank.skip_suffix s).length_le
  have hskipy := (Blank.skip_suffix y).length_le
  have hend : (seq (maybe ws) (call .endOfInput)).Quiet y n :=
    .seq (.callFree rfl) fun t ht => .call (.callFree rfl) (consumes_blanks.1 ht ▸ hn)
  obtain ⟨ns, hy⟩ := hy
  exact .call (.seq_second (Blank.run_maybe_ws s) (.seq_quiet h hy hend)) (by omega)

theorem reports_alternatives (hy : BehindComplex s y) (h : (star alternative).Reports y n q)
    (hn : n < (Blank.skip y).length) : (call .selectorList).Reports (Blank.skip s) n q := by
  obtain ⟨x, hx, hxy⟩ := hy
  have hskip := (Blank.skip_suffix y).length_le
  have hyx := (rounds_suffix hxy).length_le
  have hxs := hx.suffix.length_le
  obtain ⟨ns, hx⟩ := hx
  exact .call (.seq_second hx (.rounds rfl hxy h)) (by omega)

theorem run_comma (h : Blank.skip y = ',' :: v) :
    (call .comma).run Rule.run (Blank.skip y) = some (v, [⟨.comma, Blank.skip y, v, []⟩]) :=
  (Rule.run_node rfl).2 ⟨[], run_exactly_eq_some.2 ⟨h, rfl⟩, rfl⟩

theorem run_comma_none (h : ∀ t, Blank.skip y ≠ ',' :: t) : Rule.comma.run (Blank.skip y) = none := by
  refine Rule.run_eq_none.2 (run_exactly_eq_none.2 fun hhead => ?_)
  obtain ⟨t, ht⟩ := List.head?_eq_some_iff.1 hhead
  exact h t ht

/-- No selector behind a comma. -/
theorem reports_comma (hy : BehindComplex s y) (hcomma : Blank.skip y = ',' :: v) (hp : Separated (Blank.skip v)) :
    (call .selectors).Reports s (Blank.skip v).length .compoundSelector := by
  have hlt : (Blank.skip v).length < (Blank.skip y).length := by
    rw [hcomma]
    exact Nat.lt_succ_of_le (Blank.skip_suffix v).length_le
  have hc := run_comma hcomma
  have hnone : alternative.run Rule.run y = none :=
    run_seq_eq_none.2 (Or.inr ⟨_, _, Blank.run_maybe_ws y, run_seq_eq_none.2 (Or.inr ⟨v, _, hc,
      run_seq_eq_none.2 (Or.inr ⟨_, _, Blank.run_maybe_ws v, run_complex_none hp⟩)⟩)⟩)
  have hround : alternative.Reports y (Blank.skip v).length .compoundSelector :=
    .seq_second (Blank.run_maybe_ws y) (.seq_second hc (.seq_second (Blank.run_maybe_ws v) (blames_complex hp).reports))
  exact reports_root (reports_alternatives hy (.round_last hround hnone) hlt) (hy.consumes hnone) hlt

/-- No compound behind the sign of a combinator. -/
theorem reports_symbol (hw : Reach .selectors s .complexSelector w) (hy : BehindCompound w y)
    (hv : (call .combinatorSymbol).Consumes (Blank.skip y) v) (hp : Separated (Blank.skip v)) :
    (call .selectors).Reports s (Blank.skip v).length .compoundSelector := by
  have hlt : (Blank.skip v).length < (Blank.skip y).length :=
    Nat.lt_of_le_of_lt (Blank.skip_suffix v).length_le (hv.shorter rfl)
  have hlty : (Blank.skip v).length < y.length := Nat.lt_of_lt_of_le hlt (Blank.skip_suffix y).length_le
  obtain ⟨ns, hc⟩ := consumes_combinator.2 (Or.inl ⟨v, hv, rfl⟩)
  have hlink : link.run Rule.run y = none := run_seq_eq_none.2 (Or.inr ⟨_, ns, hc, run_compound_none hp⟩)
  have hround : link.Reports y (Blank.skip v).length .compoundSelector :=
    .seq_second hc (blames_compound hp).reports
  have hcomplex := hy.consumes hlink
  have hltw : (Blank.skip v).length < w.length := Nat.lt_of_lt_of_le hlty hcomplex.suffix.length_le
  have hreports : (call .complexSelector).Reports w (Blank.skip v).length .compoundSelector := by
    obtain ⟨x, ⟨ms, hx⟩, hxy⟩ := hy
    exact .call (.seq_second hx (.rounds rfl hxy (.round_last hround hlink))) hltw
  -- Behind the complex selector the sign stands where a comma could.
  have hcomma (t : List Char) : Blank.skip y ≠ ',' :: t := by
    intro ht
    rw [ht] at hv
    exact not_consumes (run_begins_none rfl rfl t) hv
  have hend : alternative.run Rule.run y = none := run_alternative_none hcomma
  have hquiet : (star alternative).Quiet y (Blank.skip v).length := by
    refine .star_none (.seq (.callFree rfl) fun t ht => ?_) hend
    rw [consumes_blanks.1 ht]
    exact .seq_of_none (.call (.callFree rfl) hlt) (run_comma_none hcomma)
  have hlist := (behindComplex_of_reach hw hcomplex).consumes hend
  rcases reach_complexSelector.1 hw with rfl | ⟨y', v', hy', hcomma', rfl⟩
  · obtain ⟨ms, hcomplex⟩ := hcomplex
    exact reports_root (.call (.seq_quiet hreports hcomplex hquiet) hltw) hlist hlt
  · have hround' : alternative.Reports y' (Blank.skip v).length .compoundSelector :=
      .seq_second (Blank.run_maybe_ws y')
        (.seq_second (run_comma hcomma') (.seq_second (Blank.run_maybe_ws v') hreports))
    have hlt' : (Blank.skip v).length < (Blank.skip y').length := by
      have hskip := (Blank.skip_suffix v').length_le
      rw [hcomma', List.length_cons]
      omega
    obtain ⟨ms, halt⟩ := consumes_alternative hcomma' hcomplex
    exact reports_root (reports_alternatives hy' (.round_quiet rfl hround' halt hquiet) hlt') hlist hlt

/-- Where a required compound is missing, a compound is what the failure reports. -/
theorem reports_required (h : Required s p) (hp : Separated p) :
    (call .selectors).Reports s p.length .compoundSelector := by
  cases h with
  | start =>
      have hlist : (seq (call .selectorList) (seq (maybe ws) (call .endOfInput))).Blames (Blank.skip s)
          .compoundSelector := .seq (blames_list hp) (run_list_none hp)
      rcases Nat.lt_or_eq_of_le (Blank.skip_suffix s).length_le with hlt | heq
      · exact .call (.seq_second (Blank.run_maybe_ws s) hlist.reports) hlt
      · obtain hskip : Blank.skip s = s := (Blank.skip_suffix s).eq_of_length heq
        have hblanks : (maybe ws).run Rule.run s = some (s, []) := by rw [Blank.run_maybe_ws, hskip]
        rw [hskip] at hlist hp ⊢
        have hnone : Rule.selectors.run s = none :=
          Rule.run_eq_none.2 (run_seq_eq_none.2 (Or.inr ⟨s, [], hblanks, run_seq_eq_none.2 (Or.inl (run_list_none hp))⟩))
        exact (Blames.call (r := .selectors) (.behind rfl hblanks hlist) rfl hnone).reports
  | @behind q u v ns hq hr hv =>
      simp only [List.mem_cons, List.not_mem_nil, or_false] at hq
      rcases hq with rfl | rfl
      · obtain ⟨y, hy, rfl⟩ := reach_comma.1 hr
        exact reports_comma hy (consumes_exactly.1 (consumes_call.1 ⟨ns, hv⟩)) hp
      · obtain ⟨y, hy, rfl⟩ := reach_symbol hr
        obtain ⟨w, hw, hwy⟩ := reach_combinator.1 hy
        exact reports_symbol hw hwy ⟨ns, hv⟩ hp

end SelectorSyntax.Selector.Spelling

namespace SelectorSyntax.Bracket

open Text

variable {d : Nat} {st st' x : State} {m : Mark} {input s t : List Char} {report : Report}

/-! What the scan tells of a place that it gets to with no bracket open. -/

theorem strays_step (h : st.step? d m = some st') : st.strays ⊆ st'.strays := by
  rw [State.step?] at h
  split at h
  next =>
    split at h
    next => cases h
    next =>
      cases h
      exact List.Subset.refl _
  next =>
    split at h
    next =>
      cases h
      rw [State.close]
      split
      next => split <;> first | exact List.Subset.refl _ | exact List.subset_cons_self _ _
      next => exact List.subset_cons_self _ _
    next =>
      cases h
      exact List.Subset.refl _

theorem strays_walk (h : walk d st s = .ok x) : st.strays ⊆ x.strays := by
  fun_induction walk d st s with
  | case1 | case3 =>
      cases h
      exact List.Subset.refl _
  | case6 => cases h
  | case2 st r ih => exact ih h
  | case4 st c r _ _ _ t hr ih => exact ih h
  | case5 st c r _ _ t hc ih => exact ih h
  | case7 st c r _ _ _ st' hst ih => exact List.Subset.trans (strays_step hst) (ih h)

theorem isStray_of_leads (hs : scan input d = .ok report) (h : Leads input (')' :: t)) :
    report.isStray (Place.offsetOf input (')' :: t)) = true := by
  rw [scan] at hs
  split at hs
  next => cases hs
  next x hx =>
    cases hs
    have hw := h d ⟨[], []⟩ x (Nat.zero_le d) hx
    rw [walk_step (by decide) (by decide) rfl] at hw
    have hmem : (⟨')', ')' :: t⟩ : Mark) ∈ x.strays := strays_walk hw List.mem_cons_self
    exact List.any_eq_true.2 ⟨_, List.mem_reverse.2 (List.mem_map_of_mem hmem), decide_eq_true rfl⟩

theorem unclosed_of_leads (hs : scan input d = .ok report) (h : Leads input []) : report.unclosed = [] := by
  rw [scan] at hs
  split at hs
  next => cases hs
  next x hx =>
    cases hs
    have hw := h d ⟨[], []⟩ x (Nat.zero_le d) hx
    rw [walk] at hw
    cases hw
    rfl

end SelectorSyntax.Bracket

namespace SelectorSyntax.Diagnostic.SyntaxError

open Grammar Text Selector.Spelling

variable {p : List Char} {offset : Nat} {rs : List Rule} {report : Bracket.Report}

theorem classify_emptyCompound (h : classify p offset rs report = .emptyCompound) :
    wantsCompound rs = true ∧ endsCompound p = true ∧ ∀ t, p = ')' :: t → report.isStray offset = false := by
  have hfallback (h : (if wantsCompound rs && endsCompound p then Kind.emptyCompound else .unexpectedInput) =
      .emptyCompound) : wantsCompound rs = true ∧ endsCompound p = true := by
    split at h
    next hc => exact Bool.and_eq_true_iff.1 hc
    next => cases h
  simp only [classify] at h
  split at h
  next =>
    split at h
    next => exact ⟨(hfallback h).1, (hfallback h).2, fun t ht => by cases ht⟩
    next => cases h
  next c r =>
    split at h
    next => cases h
    next =>
      split at h
      next => cases h
      next =>
        split at h
        next => cases h
        next hc =>
          refine ⟨(hfallback h).1, (hfallback h).2, fun t ht => ?_⟩
          cases ht
          simpa using hc

theorem separated_of_ends (hp : Blank.Settled p) (h : endsCompound p = true) :
    Separated p ∨ ∃ t, p = ')' :: t := by
  have hmark {w : String} (hw : w ∈ "," :: symbols) (r : List Char) : Separated (w.toList ++ r) :=
    Or.inr ⟨w, hw, r, rfl⟩
  rw [endsCompound, hp.skip_eq] at h
  split at h
  next => exact Or.inl (Or.inl rfl)
  next r => exact Or.inl (hmark (w := "||") (by decide) r)
  next c r _ =>
    have hc := of_decide_eq_true h
    simp only [List.mem_cons, List.not_mem_nil, or_false] at hc
    rcases hc with rfl | rfl | rfl | rfl | rfl
    · exact Or.inl (hmark (w := ",") (by decide) r)
    · exact Or.inl (hmark (w := ">") (by decide) r)
    · exact Or.inl (hmark (w := "+") (by decide) r)
    · exact Or.inl (hmark (w := "~") (by decide) r)
    · exact Or.inr ⟨r, rfl⟩

theorem ends_of_separated (hp : Separated p) : endsCompound p = true := by
  rw [endsCompound, hp.settled.skip_eq]
  rcases hp with rfl | ⟨w, hw, r, rfl⟩
  · rfl
  · simp only [symbols, List.mem_cons, List.not_mem_nil, or_false] at hw
    rcases hw with rfl | rfl | rfl | rfl | rfl <;> simp

/-- What separates compounds is neither a quote nor a bracket nor the beginning of an escape. -/
theorem classify_separated (hp : Separated p) (hr : wantsCompound rs = true) (hu : p = [] → report.unclosed = []) :
    classify p offset rs report = .emptyCompound := by
  have hends := ends_of_separated hp
  cases p with
  | nil => rw [classify, hu rfl, hr, hends]; rfl
  | cons c r =>
      have hall : ∀ c ∈ separators, CharClass.isQuote c = false ∧ c ≠ '\\' ∧ c ≠ ')' ∧ c ≠ ']' := by
        simp [separators, CharClass.isQuote]
      obtain ⟨hq, hb, hround, hsquare⟩ := hall c (hp.head c r rfl)
      simp [classify, hq, hb, hround, hsquare, hr, hends]

end SelectorSyntax.Diagnostic.SyntaxError

namespace SelectorSyntax

open Diagnostic Grammar Selector.Spelling Text

variable {input : List Char} {d : Nat} {report : Bracket.Report}

theorem wantsCompound_iff {rs : List Rule} : SyntaxError.wantsCompound rs = true ↔
    ∃ r ∈ rs, r ∈ [Rule.selectorList, .complexSelector, .compoundSelector, .typeSelector, .idSelector, .classSelector,
      .attributeSelector, .pseudoClass, .pseudoElement] := by
  simp only [SyntaxError.wantsCompound, List.any_eq_true, decide_eq_true_eq]

variable {p t : List Char} {q : Rule}

/-- A closing parenthesis where the scan has nothing open is told as such. -/
theorem ne_paren_of_reach (hs : Bracket.scan input d = .ok report) (hq : q ∈ outermost)
    (h : Reach .selectors input q p)
    (hstray : ∀ t, p = ')' :: t → report.isStray (Place.offsetOf input p) = false) : p ≠ ')' :: t := by
  rintro rfl
  have hleads : Bracket.Leads input (')' :: t) := (leads_of_reach h hq).2 trivial
  exact absurd (Bracket.isStray_of_leads hs hleads) (by rw [hstray t rfl]; exact nofun)

/-- Where a compound is wanted and something separates compounds, one is required. -/
theorem required_of_emptyCompound (hs : Bracket.scan input d = .ok report) (hn : Rule.selectors.run input = none)
    (hl : (Rule.selectors.attempts input).left = p.length)
    (hr : ∀ r ∈ (Rule.selectors.failure input).positives, Reach .selectors input r p)
    (h : SyntaxError.classify p (Place.offsetOf input p) (Rule.selectors.failure input).positives report =
      .emptyCompound) : Required input p ∧ Separated p := by
  obtain ⟨hwants, hends, hstray⟩ := SyntaxError.classify_emptyCompound h
  obtain ⟨r, hmem, hwanted⟩ := wantsCompound_iff.1 hwants
  rcases required_or_ended hl hwanted (hr r hmem) with hreq | ⟨w, y, hw, hy, hsymbol, rfl⟩
  · refine ⟨hreq, ?_⟩
    have hsettled : Blank.Settled p := by
      cases hreq with
      | start => exact Blank.settled_skip input
      | @behind _ _ v => exact Blank.settled_skip v
    rcases SyntaxError.separated_of_ends hsettled hends with hp | ⟨t, ht⟩
    · exact hp
    · exact absurd ht (ne_paren_of_reach hs (by decide) (reach_of_required hreq) hstray)
  · -- The compound that has ended was the last of the list, and so of the text.
    have hparen {t : List Char} (ht : Blank.skip y = ')' :: t) : Rule.compoundSelector.run (Blank.skip y) = none := by
      rw [ht]
      exact run_begins_none rfl rfl t
    have hnone : Rule.compoundSelector.run (Blank.skip y) = none := by
      rcases SyntaxError.separated_of_ends (Blank.settled_skip y) hends with hp | ⟨t, ht⟩
      · exact run_compound_none hp
      · exact hparen ht
    obtain ⟨hend, hne, hcomma⟩ := ended_of_behind hn hl hw hy hsymbol hnone
    rcases SyntaxError.separated_of_ends (Blank.settled_skip y) hends with (hnil | ⟨x, hx, t, ht⟩) | ⟨t, ht⟩
    · exact absurd hnil hne
    · rcases List.mem_cons.1 hx with rfl | hx
      · exact absurd ht.symm (hcomma t)
      · exact absurd hsymbol (consumes_symbol.2 ⟨x, hx, ht.symm⟩).ne_none
    · exact absurd ht (ne_paren_of_reach hs (by decide) hend hstray)

theorem emptyCompound_of_required (hs : Bracket.scan input d = .ok report)
    (hl : (Rule.selectors.attempts input).left = p.length) (hreq : Required input p) (hp : Separated p) :
    SyntaxError.classify p (Place.offsetOf input p) (Rule.selectors.failure input).positives report =
      .emptyCompound := by
  have hattempts : Rule.compoundSelector ∈ (Rule.selectors.attempts input).positives :=
    reports_required hreq hp (.start input) hl
  have hmem : Rule.compoundSelector ∈ (Rule.selectors.failure input).positives :=
    List.mem_filter.2 ⟨Rule.compoundSelector.mem_all, decide_eq_true hattempts⟩
  refine SyntaxError.classify_separated hp (wantsCompound_iff.2 ⟨_, hmem, by decide⟩) fun hnil => ?_
  exact Bracket.unclosed_of_leads hs (hnil ▸ (leads_of_reach (reach_of_required hreq) (by decide)).2 trivial)

/-- A selector is reported missing where one is required and the text goes on with what separates selectors. -/
theorem emptyCompound_iff_required (hs : Bracket.scan input d = .ok report) (hn : Rule.selectors.run input = none) :
    ∃ e, parseSelectorList input d = .error e ∧
      e.location = .ofChar input (Place.offsetOf input (Rule.selectors.failure input).place) ∧
      (e.kind = .emptyCompound ↔
        Required input (Rule.selectors.failure input).place ∧ Separated (Rule.selectors.failure input).place) := by
  obtain ⟨q, u, hreach, hleft⟩ := Rule.selectors.left_attempts input
  obtain ⟨w, hw⟩ := Expression.Reaches.suffix (e := .call .selectors) ⟨_, _, q, .call, hreach⟩
  have hplace : (Rule.selectors.failure input).place = u := by
    rw [Rule.failure, hleft, ← hw, List.length_append, Nat.add_sub_cancel, List.drop_left]
  have hrest : Place.restAt input (Place.offsetOf input u) = u := by
    rw [← hw, Place.offsetOf_append, Reader.restAt_append]
  refine ⟨_, by rw [parseSelectorList, matchRoot_of_none hs hn]; rfl, rfl, ?_⟩
  show SyntaxError.classify (Place.restAt input _) _ _ _ = .emptyCompound ↔ _
  rw [hplace, hrest]
  constructor
  · exact required_of_emptyCompound hs hn hleft fun r hr => hplace ▸ Rule.reach_of_mem_positives hr
  · rintro ⟨hreq, hp⟩
    exact emptyCompound_of_required hs hleft hreq hp

/-- Behind the first combinator, where the second one stands. -/
theorem emptyCompound_iff_required_behind : ∃ e, parseSelectorList "a > /**/ ~ b".toList 0 = .error e ∧
    e.kind = .emptyCompound ∧ Required "a > /**/ ~ b".toList (Rule.selectors.failure "a > /**/ ~ b".toList).place ∧
      Separated (Rule.selectors.failure "a > /**/ ~ b".toList).place := by
  have hs : Bracket.scan "a > /**/ ~ b".toList 0 = .ok .empty := by cbv
  have hn : Rule.selectors.run "a > /**/ ~ b".toList = none := by rfl
  have hk : SyntaxError.refusal? (parseSelectorList "a > /**/ ~ b".toList 0) = some .emptyCompound := by decide +kernel
  obtain ⟨e, he, -, hiff⟩ := emptyCompound_iff_required hs hn
  rw [he] at hk
  exact ⟨e, he, Option.some.inj hk, hiff.1 (Option.some.inj hk)⟩

end SelectorSyntax
