import SelectorSyntax.Proofs.Assembly.Depth
import SelectorSyntax.Proofs.Bracket.Matches

namespace SelectorSyntax.Bracket

open Grammar Grammar.Expression Selector

variable {d : Nat} {st x : State} {r q : Rule} {s u : List Char}

theorem not_isOpen (hr : r.isBracketed = false) : Activation.isOpen ⟨r, s⟩ = false := by
  cases r <;> first | rfl | cases hr

/-- A rule without a pair of brackets lets the walk get to what it calls as it was. -/
theorem leads_of_calls (hs : Admits r s) (hr : r.isBracketed = false) (h : (body r).Calls s q u) :
    Leads s u ∧ Admits q u := by
  have hne : (body r).callFree = false := Bool.eq_false_iff.2 fun hc => not_calls_callFree hc h
  have htok : r.isToken = false := by cases r <;> first | rfl | cases hne
  have hcl : isCloser r = false := by cases r <;> first | rfl | cases hne
  exact (tame_body hs htok hr hcl fun q u _ ha hc => crossed q u ha hc).calls h

/-- A call leaves the walk with as many brackets open as there are calls past their bracket. -/
theorem walk_call (hs : Admits r s) (h : (body r).Calls s q u) (hd : st.opened.length ≤ d)
    (hw : walk d st s = .ok x) :
    ∃ st', st.opened.length + (if Activation.isOpen ⟨r, s⟩ then 1 else 0) ≤ st'.opened.length ∧
      st'.opened.length ≤ d ∧ walk d st' u = .ok x ∧ Admits q u := by
  cases hr : r.isBracketed with
  | false =>
      obtain ⟨hl, ha⟩ := leads_of_calls hs hr h
      refine ⟨st, ?_, hd, hl d st x hd hw, ha⟩
      rw [not_isOpen hr]
      exact Nat.le_refl _
  | true =>
      obtain ⟨o, s', ho, rfl, hl, ha⟩ := (enclosed_body hr fun q u _ ha hc => crossed q u ha hc).calls h
      rw [walk_open ho] at hw
      split at hw
      next => cases hw
      next hlt =>
        refine ⟨_, ?_, ?_, hl d _ x ?_ hw, ha⟩
        · rw [List.length_cons]
          split <;> omega
        · rw [List.length_cons]
          omega
        · rw [List.length_cons]
          omega

/-- An open bracket has been counted. -/
theorem length_lt_of_isOpen (h : Activation.isOpen ⟨r, s⟩ = true) (hw : walk d st s = .ok x) :
    st.opened.length < d := by
  obtain ⟨o, s', ho, rfl⟩ : ∃ o s', isOpener o = true ∧ s = o :: s' := by
    unfold Activation.isOpen at h
    split at h
    next heq =>
      cases heq
      exact ⟨'[', _, rfl, rfl⟩
    next heq =>
      cases heq
      exact ⟨'(', _, rfl, rfl⟩
    next heq =>
      cases heq
      exact ⟨'(', _, rfl, rfl⟩
    next heq =>
      cases heq
      exact ⟨'(', _, rfl, rfl⟩
    next heq =>
      cases heq
      exact ⟨'[', _, rfl, rfl⟩
    next => cases h
  rw [walk_open ho] at hw
  split at hw
  next => cases hw
  next hlt => omega

theorem walk_callStack {root : Rule} {input : List Char} (hroot : ∀ s, Admits root s)
    (hw : walk d ⟨[], []⟩ input = .ok x)
    {a : Activation} {stack : List Activation} (h : CallStack root input (a :: stack)) :
    ∃ st, openCalls stack ≤ st.opened.length ∧ st.opened.length ≤ d ∧ walk d st a.place = .ok x ∧
      Admits a.rule a.place := by
  generalize hl : a :: stack = l at h
  induction h generalizing a stack with
  | start =>
      cases hl
      exact ⟨⟨[], []⟩, Nat.zero_le _, Nat.zero_le _, hw, hroot input⟩
  | call _ hc ih =>
      cases hl
      obtain ⟨st, ho, hd, hw, ha⟩ := ih rfl
      obtain ⟨st', ho', hd', hw', ha'⟩ := walk_call ha hc hd hw
      refine ⟨st', ?_, hd', hw', ha'⟩
      rw [openCalls, List.countP_cons]
      exact Nat.le_trans (Nat.add_le_add_right ho _) ho'

theorem openCalls_le {root : Rule} {input : List Char} (hroot : ∀ s, Admits root s)
    (hw : walk d ⟨[], []⟩ input = .ok x) {stack : List Activation} (h : CallStack root input stack) :
    openCalls stack ≤ d := by
  cases stack with
  | nil => exact Nat.zero_le _
  | cons a stack =>
      obtain ⟨st, ho, hd, hw, -⟩ := walk_callStack hroot hw h
      rw [openCalls, List.countP_cons]
      cases hopen : a.isOpen with
      | false => exact Nat.le_trans ho hd
      | true => exact Nat.lt_of_le_of_lt ho (length_lt_of_isOpen hopen hw)

theorem walk_of_scan {input : List Char} {report : Report} (h : scan input d = .ok report) :
    ∃ x, walk d ⟨[], []⟩ input = .ok x := by
  rw [scan] at h
  split at h
  next => cases h
  next x hx => exact ⟨x, hx⟩

/-- A text that a rule matches is scanned without an error if no more brackets of the match lie inside one another than
allowed. -/
theorem exists_scan {root : Node} {input : List Char} (ha : Admits r input) (hcl : isCloser r = false)
    (h : r.run input = some ([], [root])) (hd : root.nesting ≤ d) : ∃ report, scan input d = .ok report := by
  have hc := crossed r input ha hcl [] [root] h d ⟨[], []⟩ (Nat.zero_le d)
  rw [if_pos (by simpa using hd)] at hc
  rw [scan, hc, walk]
  exact ⟨_, rfl⟩

/-- Whatever a rule for whole texts matches is no deeper than the scan lets it be. -/
theorem nesting_le {root : Node} {input : List Char} (hr : Admits r input) (hcl : isCloser r = false)
    (h : matchRoot r input d = .ok root) : root.nesting ≤ d := by
  obtain ⟨⟨report, hscan⟩, t, hrun⟩ := matchRoot_eq_ok h
  obtain ⟨x, hw⟩ := walk_of_scan hscan
  have hc := ((crossed r input hr hcl t _ hrun).of_ok (Nat.zero_le d) hw).1
  simpa using hc

/-- Where the scan finds no bracket too many, the grammar is never inside more brackets than allowed,
not even in what it takes back, and neither are the parameters that come out of it. -/
theorem nesting_bounded_of_scan {input : List Char} {report : Report} (h : scan input d = .ok report) :
    (∀ root ∈ [Rule.selectors, Rule.text], ∀ stack, CallStack root input stack → openCalls stack ≤ d) ∧
    (∀ list, parseSelectorList input d = .ok list →
      ∀ s ∈ list, ∀ c ∈ s.compounds, ∀ p ∈ c.allPseudos, ∀ v ∈ p.parameter, v.depth ≤ d) ∧
    ∀ v, parseTextFragment input d = .ok v → v.depth ≤ d + 1 := by
  obtain ⟨x, hw⟩ := walk_of_scan h
  refine ⟨?_, ?_, ?_⟩
  · intro root hroot stack hstack
    refine openCalls_le (fun s => ?_) hw hstack
    simp only [List.mem_cons, List.not_mem_nil, or_false] at hroot
    rcases hroot with rfl | rfl <;> trivial
  · intro list hlist
    obtain ⟨root, hm, hs⟩ := parseSelectorList_eq_ok hlist
    exact OfNodes.depth_selectors hs (nesting_le (r := .selectors) trivial rfl hm)
  · intro v hv
    obtain ⟨root, ps, hm, hps, rfl⟩ := parseTextFragment_eq_ok hv
    have hd := OfNodes.depth_argumentItems hps
    have hn := OfNodes.nestingOfAll_children_le root
    have hle := nesting_le (r := .text) trivial rfl hm
    rw [Parameter.depth]
    omega

/-- Brackets left open behind a comment that never closes. -/
theorem nesting_bounded_of_scan_unclosed :
    scan ":is(a[b]) /*[(".toList 2 = .ok ⟨[(12, '['), (13, '(')], []⟩ ∧
    ∀ root ∈ [Rule.selectors, Rule.text], ∀ stack, CallStack root ":is(a[b]) /*[(".toList stack →
      openCalls stack ≤ 2 := by
  have h : scan ":is(a[b]) /*[(".toList 2 = .ok ⟨[(12, '['), (13, '(')], []⟩ := by cbv
  exact ⟨h, (nesting_bounded_of_scan h).1⟩

end SelectorSyntax.Bracket
