import SelectorSyntax.Proofs.Cut.Openings
import SelectorSyntax.Proofs.Cut.Selectors

namespace SelectorSyntax.Bracket

open Grammar Grammar.Expression Selector.Spelling Text

variable {c o : Char} {s t : List Char} {ns : List Node} {ps qs : List (List Char × List Char)}

/-! A closer too many stands where the end of the text was expected. -/

theorem not_balanced_stray (h : Balanced s [] ps) (hc : openerOf? c = some o) (hk : Mute (c :: t)) :
    ¬ Balanced (s ++ c :: t) [] qs := by
  intro hall
  obtain ⟨rs, hb⟩ := Balanced.replace (t := []) (u := []) (guards_mute hk) trivial (by simpa using h)
  rw [List.nil_append] at hb
  obtain ⟨ls, hrest⟩ := hb.rest hall fun d r hd => by cases hd
  cases hrest with
  | unit hu =>
      rw [unit?_closer hc] at hu
      cases hu
  | group ho =>
      rw [isOpener_of_closer hc] at ho
      cases ho

/-- Behind a list of selectors the end of the text is tried in front of the closer. -/
theorem reach_stray (h : Rule.selectors.run s = some (t, ns)) (hc : c ∈ [')', ']']) :
    Reach .selectors (s ++ [c]) .endOfInput [c] := by
  obtain ⟨v, l, hlist, hv, -⟩ := run_selectors_eq_some.1 h
  obtain ⟨o, ho⟩ := exists_openerOf hc
  have hd := detached_closer ho
  have hsettled : Blank.Settled [c] := by
    rcases List.mem_pair.1 hc with rfl | rfl
    · exact settled_of_head rfl (by decide) []
    · exact settled_of_head rfl (by decide) []
  have hend : (maybe ws).Consumes (v ++ [c]) [c] :=
    (keeps_blanks (v := []) hsettled).consumes (lasting_of_mute (u := []) hd.mute) (consumes_blanks.2 (by simpa using hv.symm))
  have hskip := (consumes_blanks.1 hend).symm
  have hcomma (r : List Char) : Blank.skip (v ++ [c]) ≠ ',' :: r := by
    rintro hr
    cases hskip.symm.trans hr
    cases ho
  have hkeeps : (call .selectorList).Keeps [] [c] v :=
    keeps_list (closed_of_ender (List.mem_cons_of_mem ',' hc) hskip) hcomma hd.ends
  have hlist : (call .selectorList).Consumes (Blank.skip s ++ [c]) (v ++ [c]) := by
    refine hkeeps.consumes (lasting_of_mute hd.mute) ?_
    rw [List.append_nil, List.append_nil]
    exact ⟨[l], hlist⟩
  have hblanks : (maybe ws).Consumes (s ++ [c]) (Blank.skip s ++ [c]) :=
    (keeps_blanks (settled_of_consumes rfl (by decide) hlist)).consumes (lasting_of_mute (u := []) hd.mute)
      (consumes_blanks.2 (by simp))
  obtain ⟨_, hblanks⟩ := hblanks
  obtain ⟨_, hlist⟩ := hlist
  obtain ⟨_, hend⟩ := hend
  exact .call (.second hblanks (.second hlist (.second hend .call))) .here

theorem failure_place_stray (h : Rule.selectors.run s = some (t, ns)) (hb : Balanced s [] ps) (hc : c ∈ [')', ']']) :
    Rule.selectors.run (s ++ [c]) = none ∧ (Rule.selectors.failure (s ++ [c])).place = [c] := by
  obtain ⟨o, ho⟩ := exists_openerOf hc
  have hrefused {k : List Char} (hk : Detached k) : ¬ (call .selectors).Consumes (s ++ [c] ++ k) [] := by
    rintro ⟨ms, hm⟩
    rw [List.append_assoc] at hm
    have hall := paired_of_run .selectors _ trivial rfl rfl hm
    exact not_balanced_stray hb ho (mute_append (detached_closer ho).mute hk.mute) hall.balanced
  constructor
  · cases hrun : Rule.selectors.run (s ++ [c]) with
    | none => rfl
    | some x =>
        obtain ⟨v, ms⟩ := x
        obtain rfl := eq_nil_of_run (Or.inl rfl) hrun
        refine absurd ?_ (hrefused .nil)
        rw [List.append_nil]
        exact ⟨ms, hrun⟩
  · have hend : Rule.endOfInput.run [c] = none := by
      cases hrun : Rule.endOfInput.run [c] with
      | none => rfl
      | some x => cases (Rule.run_endOfInput_eq_some.1 hrun).1
    have hle : (Rule.selectors.attempts (s ++ [c])).left ≤ 1 :=
      Rule.left_attempts_le (reach_stray h hc) rfl (by decide) hend
    have hne : (Rule.selectors.attempts (s ++ [c])).left ≠ 0 := by
      intro hzero
      obtain ⟨q, u, hreach, hleft⟩ := Rule.selectors.left_attempts (s ++ [c])
      obtain rfl : u = [] := List.length_eq_zero_iff.1 (hleft.symm.trans hzero)
      have hreaches : (call .selectors).Reaches (s ++ [c] ++ []) [] := ⟨_, _, q, .call, by simpa using hreach⟩
      obtain ⟨k, hk, hall⟩ := completes_selectors hreaches
      exact hrefused hk hall
    have hleft : (Rule.selectors.attempts (s ++ [c])).left = 1 := by omega
    rw [Rule.failure, hleft, List.length_append, List.length_singleton, Nat.add_sub_cancel, List.drop_left]

end SelectorSyntax.Bracket

namespace SelectorSyntax

open Diagnostic Grammar Text SelectorSyntax.Bracket

variable {before rest s : List Char} {d : Nat} {report : Report} {list : Selector.SelectorList} {root : Node}

/-- Where a list of selectors is refused for its brackets, the error is about what is left there. -/
theorem unmatched_of_failure (hs : scan (before ++ rest) d = .ok report)
    (hn : Rule.selectors.run (before ++ rest) = none) (hp : (Rule.selectors.failure (before ++ rest)).place = rest)
    (hk : ∀ positives, SyntaxError.classify rest (Place.byteSize before) positives report = .unmatchedBracket) :
    ∃ e, parseSelectorList (before ++ rest) d = .error e ∧ e.kind = .unmatchedBracket ∧
      e.found = (if (rest.take 1).isEmpty then none else some (String.ofList (rest.take 1))) ∧
      e.location.start.offset = Place.byteSize before := by
  have hroot := matchRoot_of_none hs hn
  rw [hp, Place.offsetOf_append] at hroot
  refine ⟨_, by rw [parseSelectorList, hroot]; rfl, ?_, ?_, ?_⟩
  · simp only [SyntaxError.ofAttempts, Reader.restAt_append]
    exact hk _
  · exact SyntaxError.about_ofAttempts.found
  · exact SyntaxError.about_ofAttempts.start.offset

/-- A list of selectors one bracket off is diagnosed as such. Cut where the scan has brackets open, within no comment and
no token, it is refused at the cut, and with a closer behind it, it is refused at the closer. -/
theorem diagnoses_unmatched (h : parseSelectorList s d = .ok list) :
    (∃ root, matchRoot .selectors s d = .ok root ∧
      ∀ w u, s = w ++ u → openAt u s ≠ [] → Unsplit u s → Uncut u [root] →
        ∃ e, parseSelectorList w d = .error e ∧ e.kind = .unmatchedBracket ∧ e.found = none ∧
          e.location.start.offset = Place.byteSize w) ∧
    ∀ c ∈ [')', ']'], ∃ e, parseSelectorList (s ++ [c]) d = .error e ∧ e.kind = .unmatchedBracket ∧
      e.location.start.offset = Place.byteSize s := by
  obtain ⟨root, hroot, -⟩ := parseSelectorList_eq_ok h
  obtain ⟨⟨report, hs⟩, t, hrun⟩ := matchRoot_eq_ok hroot
  obtain rfl := eq_nil_of_run (Or.inl rfl) hrun
  have hb : Balanced s [] root.pairs := by simpa using (paired_of_run .selectors s trivial rfl rfl hrun).balanced
  refine ⟨⟨root, hroot, ?_⟩, ?_⟩
  · rintro w u rfl hopen hsplit huncut
    obtain ⟨n, hn, -, -, -, hmatch⟩ := Rule.isMatch_of_run rfl hrun
    cases hn
    obtain ⟨⟨cs, hcs, hunclosed⟩, hasks⟩ := breaks_selectors hrun (straddled_of_openAt hmatch hb hopen) huncut hsplit
    obtain ⟨report, hs, hne⟩ := hunclosed.scan hcs hs
    have hnone : Rule.selectors.run w = none := by
      cases hw : Rule.selectors.run w with
      | none => rfl
      | some x =>
          obtain ⟨t, ms⟩ := x
          obtain ⟨m, rfl, -⟩ := Rule.isMatch_of_run rfl hw
          obtain ⟨report', hs', hbalanced, -⟩ := scan_of_matchRoot (Or.inl rfl) (matchRoot_of_run hs hw)
          cases hs.symm.trans hs'
          rw [Report.isBalanced, Bool.and_eq_true] at hbalanced
          exact absurd (List.isEmpty_iff.1 hbalanced.1) hne
    have hplace : (Rule.selectors.failure w).place = [] := Rule.failure_place_of_asks hasks
    rw [← List.append_nil w] at hs hnone hplace
    simpa using unmatched_of_failure hs hnone hplace fun positives => by
      rw [SyntaxError.classify, if_neg (by simpa using hne)]
  · intro c hc
    obtain ⟨hnone, hplace⟩ := failure_place_stray hrun hb hc
    obtain ⟨e, he, hkind, -, hoffset⟩ := unmatched_of_failure (scan_stray hb hc hs) hnone hplace fun positives => by
      rcases List.mem_pair.1 hc with rfl | rfl <;> simp [SyntaxError.classify, Report.isStray, CharClass.isQuote]
    exact ⟨e, he, hkind, hoffset⟩

/-- The argument of a counting pseudo-class, cut in front of its closer and with a closer too many. -/
theorem diagnoses_unmatched_argument :
    (∃ e, parseSelectorList ":nth-col(n".toList 1 = .error e ∧ e.kind = .unmatchedBracket ∧ e.found = none ∧
      e.location.start.offset = 10) ∧
    ∃ e, parseSelectorList ":nth-col(n)]".toList 1 = .error e ∧ e.kind = .unmatchedBracket ∧
      e.location.start.offset = 11 := by
  have hlist : parseSelectorList ":nth-col(n)".toList 1 = .ok
      [⟨⟨none, [.pseudoClass ⟨"nth-col", some (.text "n")⟩], []⟩, []⟩] := by cbv
  have hread : matchRoot .selectors ":nth-col(n)".toList 1 = .ok ⟨.selectors, ":nth-col(n)".toList, [],
      [⟨.selectorList, ":nth-col(n)".toList, [], [⟨.complexSelector, ":nth-col(n)".toList, [],
        [⟨.compoundSelector, ":nth-col(n)".toList, [], [⟨.pseudoClass, ":nth-col(n)".toList, [],
          [⟨.nthName, "nth-col(n)".toList, "(n)".toList, []⟩, ⟨.nthArguments, "(n)".toList, [],
            [⟨.nthValue, "n)".toList, ")".toList, []⟩, ⟨.parenClose, ")".toList, [], []⟩]⟩]⟩]⟩]⟩]⟩,
        ⟨.endOfInput, [], [], []⟩]⟩ := by cbv
  have hopen : openAt ")".toList ":nth-col(n)".toList = [⟨'(', "(n)".toList⟩] := by cbv
  obtain ⟨⟨root, hroot, hcut⟩, hcloser⟩ := diagnoses_unmatched hlist
  obtain rfl := Except.ok.inj (hroot.symm.trans hread)
  refine ⟨hcut _ ")".toList rfl ?_ (unsplit_of_slash (by decide)) ?_, hcloser ']' (by decide)⟩
  · rw [hopen]
    exact List.cons_ne_nil _ _
  · simp [Uncut, Node.familyOfAll, Node.family, solid, Within]

end SelectorSyntax
