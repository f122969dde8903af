import SelectorSyntax.Proofs.Completion.Lists
import SelectorSyntax.Proofs.Grammar.Farthest

namespace SelectorSyntax.Selector.Spelling

open Relation Grammar Expression Text SelectorSyntax.Bracket

/-- The rules that are only tried outside brackets, and call none inside of any. -/
def outermost : List Rule :=
  [.endOfInput, .selectors, .text, .selectorList, .complexSelector, .combinator, .combinatorSymbol, .descendant,
    .comma, .compoundSelector]

/-- The rules that may call `q`. -/
def callers (q : Rule) : List Rule := Rule.all.filter fun p => q ∈ (body p).called

/-- Some alternatives of the list that `s` begins with end in front of `y`. -/
def BehindComplex (s y : List Char) : Prop :=
  ∃ x, (call .complexSelector).Consumes (Blank.skip s) x ∧ ReflTransGen alternative.Consumes x y

/-- Some compounds of the complex selector that `w` begins with end in front of `y`. -/
def BehindCompound (w y : List Char) : Prop :=
  ∃ x, (call .compoundSelector).Consumes w x ∧ ReflTransGen link.Consumes x y

/-- A place where nothing but a compound selector can stand: the start of the text or behind a comma or the sign of
a combinator that the grammar has taken, and the blanks there. -/
inductive Required (s : List Char) : List Char → Prop
  | start : Required s (Blank.skip s)
  | behind {q u v ns} : q ∈ [Rule.comma, .combinatorSymbol] → Reach .selectors s q u → q.run u = some (v, ns) →
      Required s (Blank.skip v)

variable {e f : Expression} {p q r : Rule} {s u v w x y : List Char}

/-! What is tried outside brackets. -/

theorem mem_callers (h : (body p).Calls s q u) : p ∈ callers q :=
  List.mem_filter.2 ⟨p.mem_all, decide_eq_true h.mem_called⟩

/-- The scan gets to where a rule outside brackets is tried as it was. -/
theorem leads_of_reach (h : Reach r s q u) (hq : q ∈ outermost) : r ∈ outermost ∧ (Admits r s → Leads s u) := by
  have hplain : ∀ r ∈ outermost, r.isBracketed = false := by decide
  have hcallers : ∀ q ∈ outermost, callers q ⊆ outermost := by decide
  induction h with
  | here => exact ⟨hq, fun _ => .refl _⟩
  | call hc _ ih =>
      obtain ⟨hp, hl⟩ := ih hq
      have hr := hcallers _ hp (mem_callers hc)
      refine ⟨hr, fun ha => ?_⟩
      obtain ⟨hl', ha'⟩ := leads_of_calls ha (hplain _ hr) hc
      exact hl'.trans (hl ha')

theorem calls_blanks : (seq (maybe ws) e).Calls s q u ↔ e.Calls (Blank.skip s) q u := by
  rw [calls_seq, or_iff_right (not_calls_callFree rfl), Blank.run_maybe_ws]
  constructor
  · rintro ⟨t, ns, ht, h⟩
    cases ht
    exact h
  · exact fun h => ⟨_, _, rfl, h⟩

theorem calls_seq_consumes : (seq e f).Calls s q u ↔ e.Calls s q u ∨ ∃ t, e.Consumes s t ∧ f.Calls t q u := by
  rw [calls_seq]
  exact or_congr_right ⟨fun ⟨t, ns, ht, h⟩ => ⟨t, ⟨ns, ht⟩, h⟩, fun ⟨t, ⟨ns, ht⟩, h⟩ => ⟨t, ns, ht, h⟩⟩

/-! Each of the rules has one caller, and is tried where the caller tries it. -/

theorem reach_callers (h : Reach r s q u) (hr : q ≠ r) :
    ∃ p ∈ callers q, ∃ v, Reach r s p v ∧ (body p).Calls v q u := by
  rcases h.cases_last with ⟨hq, -⟩ | ⟨p, v, hv, hc⟩
  · exact absurd hq hr
  · exact ⟨p, mem_callers hc, v, hv, hc⟩

theorem reach_of_callers (h : Reach r s q u) (hr : q ≠ r)
    (hp : ∀ p' ∈ callers q, p' = p ∨ p' ≠ r ∧ callers p' = []) : ∃ v, Reach r s p v ∧ (body p).Calls v q u := by
  obtain ⟨p', hmem, v, hv, hc⟩ := reach_callers h hr
  rcases hp p' hmem with rfl | ⟨hne, hnone⟩
  · exact ⟨v, hv, hc⟩
  · obtain ⟨p'', hmem, -⟩ := reach_callers hv hne
    exact absurd hmem (hnone ▸ List.not_mem_nil)

theorem reach_selectors (h : Reach .selectors s .selectors u) : u = s := by
  rcases h.cases_last with ⟨-, hu⟩ | ⟨p, v, -, hc⟩
  · exact hu
  · have hnone : callers .selectors = [] := by decide
    exact absurd (mem_callers hc) (hnone ▸ List.not_mem_nil)

theorem reach_selectorList : Reach .selectors s .selectorList u ↔ u = Blank.skip s := by
  constructor
  · intro h
    obtain ⟨v, hv, hc⟩ := reach_of_callers (p := .selectors) h nofun (by decide)
    obtain rfl := reach_selectors hv
    rcases calls_seq.1 (calls_blanks.1 hc) with hc | ⟨t, ns, -, hc⟩
    · exact (calls_call.1 hc).2
    · exact absurd (calls_call.1 (calls_blanks.1 hc)).1 nofun
  · rintro rfl
    exact .call (calls_blanks.2 (.first .call)) .here

/-- A list calls for a complex selector where it starts and behind every comma. -/
theorem reach_complexSelector : Reach .selectors s .complexSelector u ↔
    u = Blank.skip s ∨ ∃ y v, BehindComplex s y ∧ Blank.skip y = ',' :: v ∧ u = Blank.skip v := by
  constructor
  · intro h
    obtain ⟨w, hw, hc⟩ := reach_of_callers (p := .selectorList) h nofun (by decide)
    obtain rfl := reach_selectorList.1 hw
    rcases calls_seq_consumes.1 hc with hc | ⟨x, hx, hc⟩
    · exact Or.inl (calls_call.1 hc).2
    · obtain ⟨y, hy, hc⟩ := calls_star.1 hc
      rcases calls_seq_consumes.1 (calls_blanks.1 hc) with hc | ⟨v, hv, hc⟩
      · exact absurd (calls_call.1 hc).1 nofun
      · exact Or.inr ⟨y, v, ⟨x, hx, hy⟩, consumes_exactly.1 (consumes_call.1 hv), (calls_call.1 (calls_blanks.1 hc)).2⟩
  · have hlist : Reach .selectors s .selectorList (Blank.skip s) := reach_selectorList.2 rfl
    rintro (rfl | ⟨y, v, ⟨x, hx, hy⟩, hcomma, rfl⟩)
    · exact hlist.tail (.first .call)
    · have hv : (call .comma).Consumes (Blank.skip y) v := consumes_call.2 (consumes_exactly.2 hcomma)
      refine hlist.tail (calls_seq_consumes.2 (Or.inr ⟨x, hx, calls_star.2 ⟨y, hy, ?_⟩⟩))
      exact calls_blanks.2 (calls_seq_consumes.2 (Or.inr ⟨v, hv, calls_blanks.2 .call⟩))

theorem reach_comma : Reach .selectors s .comma u ↔ ∃ y, BehindComplex s y ∧ u = Blank.skip y := by
  constructor
  · intro h
    obtain ⟨w, hw, hc⟩ := reach_of_callers (p := .selectorList) h nofun (by decide)
    obtain rfl := reach_selectorList.1 hw
    rcases calls_seq_consumes.1 hc with hc | ⟨x, hx, hc⟩
    · exact absurd (calls_call.1 hc).1 nofun
    · obtain ⟨y, hy, hc⟩ := calls_star.1 hc
      rcases calls_seq_consumes.1 (calls_blanks.1 hc) with hc | ⟨v, -, hc⟩
      · exact ⟨y, ⟨x, hx, hy⟩, (calls_call.1 hc).2⟩
      · exact absurd (calls_call.1 (calls_blanks.1 hc)).1 nofun
  · rintro ⟨y, ⟨x, hx, hy⟩, rfl⟩
    have hlist : Reach .selectors s .selectorList (Blank.skip s) := reach_selectorList.2 rfl
    refine hlist.tail (calls_seq_consumes.2 (Or.inr ⟨x, hx, calls_star.2 ⟨y, hy, ?_⟩⟩))
    exact calls_blanks.2 (.first .call)

/-- A complex selector calls for a compound where it starts and behind every combinator. -/
theorem reach_compoundSelector : Reach .selectors s .compoundSelector u ↔
    Reach .selectors s .complexSelector u ∨
      ∃ w y, Reach .selectors s .complexSelector w ∧ BehindCompound w y ∧ (call .combinator).Consumes y u := by
  constructor
  · intro h
    obtain ⟨w, hw, hc⟩ := reach_of_callers (p := .complexSelector) h nofun (by decide)
    rcases calls_seq_consumes.1 hc with hc | ⟨x, hx, hc⟩
    · exact Or.inl ((calls_call.1 hc).2 ▸ hw)
    · obtain ⟨y, hy, hc⟩ := calls_star.1 hc
      rcases calls_seq_consumes.1 hc with hc | ⟨v, hv, hc⟩
      · exact absurd (calls_call.1 hc).1 nofun
      · obtain rfl := (calls_call.1 hc).2
        exact Or.inr ⟨w, y, hw, ⟨x, hx, hy⟩, hv⟩
  · rintro (h | ⟨w, y, hw, ⟨x, hx, hy⟩, hu⟩)
    · exact h.tail (.first .call)
    · refine hw.tail (calls_seq_consumes.2 (Or.inr ⟨x, hx, calls_star.2 ⟨y, hy, ?_⟩⟩))
      exact calls_seq_consumes.2 (Or.inr ⟨u, hu, .call⟩)

theorem reach_combinator : Reach .selectors s .combinator u ↔
    ∃ w, Reach .selectors s .complexSelector w ∧ BehindCompound w u := by
  constructor
  · intro h
    obtain ⟨w, hw, hc⟩ := reach_of_callers (p := .complexSelector) h nofun (by decide)
    rcases calls_seq_consumes.1 hc with hc | ⟨x, hx, hc⟩
    · exact absurd (calls_call.1 hc).1 nofun
    · obtain ⟨y, hy, hc⟩ := calls_star.1 hc
      rcases calls_seq_consumes.1 hc with hc | ⟨v, -, hc⟩
      · obtain rfl := (calls_call.1 hc).2
        exact ⟨w, hw, x, hx, hy⟩
      · exact absurd (calls_call.1 hc).1 nofun
  · rintro ⟨w, hw, x, hx, hy⟩
    refine hw.tail (calls_seq_consumes.2 (Or.inr ⟨x, hx, calls_star.2 ⟨u, hy, .first .call⟩⟩))

theorem reach_symbol (h : Reach .selectors s .combinatorSymbol u) :
    ∃ y, Reach .selectors s .combinator y ∧ u = Blank.skip y := by
  obtain ⟨y, hy, hc⟩ := reach_of_callers (p := .combinator) h nofun (by decide)
  refine ⟨y, hy, ?_⟩
  rcases calls_choice.1 hc with hc | ⟨-, hc⟩
  · rcases calls_seq.1 (calls_blanks.1 hc) with hc | ⟨t, ns, -, hc⟩
    · exact (calls_call.1 hc).2
    · exact absurd hc (not_calls_callFree rfl)
  · exact absurd (calls_call.1 hc).1 nofun

/-- A combinator is a sign with blanks around it, or blanks alone where there is no sign behind them. -/
theorem consumes_combinator : (call .combinator).Consumes y u ↔
    (∃ v, (call .combinatorSymbol).Consumes (Blank.skip y) v ∧ u = Blank.skip v) ∨
      Rule.combinatorSymbol.run (Blank.skip y) = none ∧ ¬ Blank.Settled y ∧ u = Blank.skip y := by
  have hsign : (seqs [maybe ws, call .combinatorSymbol, maybe ws]).run Rule.run y = none ↔
      Rule.combinatorSymbol.run (Blank.skip y) = none := by
    rw [seqs_cons_cons, run_seq_of_run (Blank.run_maybe_ws y), seqs_cons_cons, run_seq_eq_none, or_iff_left]
    · exact Iff.rfl
    · rintro ⟨v, ns, -, hv⟩
      cases (Blank.run_maybe_ws v).symm.trans hv
  rw [consumes_call]
  refine consumes_choice.trans (or_congr ?_ (and_congr hsign ?_))
  · simp only [seqs, consumes_seq, consumes_blanks]
    constructor
    · rintro ⟨_, rfl, v, hv, hu⟩
      exact ⟨v, hv, hu⟩
    · rintro ⟨v, hv, hu⟩
      exact ⟨_, rfl, v, hv, hu⟩
  · rw [consumes_call]
    constructor
    · rintro ⟨ns, h⟩
      obtain ⟨hs, hu, -⟩ := Blank.run_ws_eq_some.1 h
      exact ⟨hs, hu⟩
    · rintro ⟨hs, hu⟩
      exact ⟨[], Blank.run_ws_eq_some.2 ⟨hs, hu, rfl⟩⟩

/-! What ends where nothing more of it follows. -/

theorem BehindCompound.consumes (h : BehindCompound w y) (hn : link.run Rule.run y = none) :
    (call .complexSelector).Consumes w y := by
  obtain ⟨x, hx, hxy⟩ := h
  exact consumes_call.2 (consumes_seq.2 ⟨x, hx, (consumes_star rfl).2 ⟨hxy, hn⟩⟩)

theorem BehindComplex.consumes (h : BehindComplex s y) (hn : alternative.run Rule.run y = none) :
    (call .selectorList).Consumes (Blank.skip s) y := by
  obtain ⟨x, hx, hxy⟩ := h
  exact consumes_call.2 (consumes_seq.2 ⟨x, hx, (consumes_star rfl).2 ⟨hxy, hn⟩⟩)

theorem consumes_alternative (hcomma : Blank.skip x = ',' :: v)
    (h : (call .complexSelector).Consumes (Blank.skip v) y) : alternative.Consumes x y := by
  refine consumes_seq.2 ⟨_, consumes_blanks.2 rfl, consumes_seq.2 ⟨v, ?_, ?_⟩⟩
  · exact consumes_call.2 (consumes_exactly.2 hcomma)
  · exact consumes_seq.2 ⟨_, consumes_blanks.2 rfl, h⟩

/-- A complex selector of the list is one more alternative. -/
theorem behindComplex_of_reach (hw : Reach .selectors s .complexSelector w)
    (h : (call .complexSelector).Consumes w y) : BehindComplex s y := by
  rcases reach_complexSelector.1 hw with rfl | ⟨x, v, ⟨z, hz, hzx⟩, hcomma, rfl⟩
  · exact ⟨y, h, .refl⟩
  · exact ⟨z, hz, hzx.tail (consumes_alternative hcomma h)⟩

/-! Where a compound is required. -/

theorem required_of_reach (h : Reach .selectors s .complexSelector u) : Required s u := by
  rcases reach_complexSelector.1 h with rfl | ⟨y, v, hy, hcomma, rfl⟩
  · exact .start
  · obtain ⟨ns, hv⟩ : (call .comma).Consumes (Blank.skip y) v := consumes_call.2 (consumes_exactly.2 hcomma)
    exact .behind (q := .comma) (by decide) (reach_comma.2 ⟨y, hy, rfl⟩) hv

theorem reach_of_required (h : Required s u) : Reach .selectors s .compoundSelector u := by
  cases h with
  | start => exact reach_compoundSelector.2 (Or.inl (reach_complexSelector.2 (Or.inl rfl)))
  | @behind q x v ns hq hr hv =>
      simp only [List.mem_cons, List.not_mem_nil, or_false] at hq
      rcases hq with rfl | rfl
      · obtain ⟨y, hy, rfl⟩ := reach_comma.1 hr
        have hcomma := consumes_exactly.1 (consumes_call.1 ⟨ns, hv⟩)
        exact reach_compoundSelector.2 (Or.inl (reach_complexSelector.2 (Or.inr ⟨y, v, hy, hcomma, rfl⟩)))
      · obtain ⟨y, hy, rfl⟩ := reach_symbol hr
        obtain ⟨w, hw, hwy⟩ := reach_combinator.1 hy
        exact reach_compoundSelector.2 (Or.inr ⟨w, y, hw, hwy, consumes_combinator.2 (Or.inl ⟨v, ⟨ns, hv⟩, rfl⟩)⟩)

/-- Where a compound is tried it is required, or follows another behind blanks. -/
theorem required_or_behind (h : Reach .selectors s .compoundSelector u) : Required s u ∨
    ∃ w y, Reach .selectors s .complexSelector w ∧ BehindCompound w y ∧
      Rule.combinatorSymbol.run (Blank.skip y) = none ∧ u = Blank.skip y := by
  rcases reach_compoundSelector.1 h with h | ⟨w, y, hw, hy, hu⟩
  · exact Or.inl (required_of_reach h)
  · rcases consumes_combinator.1 hu with ⟨v, ⟨ns, hv⟩, rfl⟩ | ⟨hn, -, hu⟩
    · have hcombinator := reach_combinator.2 ⟨w, hw, hy⟩
      have hsymbol : Reach .selectors s .combinatorSymbol (Blank.skip y) :=
        hcombinator.tail (.left (calls_blanks.2 (.first .call)))
      exact Or.inl (.behind (q := .combinatorSymbol) (by decide) hsymbol hv)
    · exact Or.inr ⟨w, y, hw, hy, hn, hu⟩

end SelectorSyntax.Selector.Spelling
