import SelectorSyntax.Proofs.Check.Lines
import SelectorSyntax.Proofs.Spelling.Rows
import SelectorSyntax.Proofs.Tokens.Blank

namespace SelectorSyntax.Check

open Grammar Selector Text OfNodes

variable {a b : Arguments} {p : Arguments.Pending} {opts sels : List String} {text : String} {s : List Char} {d : Nat}

/-! What the arguments name. -/

namespace Arguments

theorem foldl_addSelector (a : Arguments) (sels : List String) :
    sels.foldl addSelector a = { a with selectors := a.selectors ++ sels } := by
  induction sels generalizing a with
  | nil => rw [List.foldl_nil, List.append_nil]
  | cons s sels ih => rw [List.foldl_cons, ih, addSelector, List.append_assoc, List.singleton_append]

theorem readFrom_separator (a : Arguments) (p : Pending) (sels : List String) :
    a.readFrom p ("--" :: sels) = (a.settle p).map fun b => sels.foldl addSelector b := by
  unfold readFrom
  rfl

/-- Behind options that are understood, what stands behind two dashes is taken as it is. -/
theorem readFrom_append (hsep : "--" ∉ opts) (h : a.readFrom p opts = .ok b) (sels : List String) :
    a.readFrom p (opts ++ "--" :: sels) = .ok (sels.foldl addSelector b) := by
  induction opts generalizing a p with
  | nil =>
      rw [readFrom] at h
      rw [List.nil_append, readFrom_separator, h]
      rfl
  | cons arg opts ih =>
      have hne : arg ≠ "--" := fun h => hsep (h ▸ List.mem_cons_self)
      have hsep : "--" ∉ opts := fun h => hsep (List.mem_cons_of_mem arg h)
      rw [List.cons_append]
      unfold readFrom at h ⊢
      split at h
      next hdashes => exact absurd (String.toList_inj.1 hdashes) hne
      next =>
        obtain ⟨⟨c, q⟩, hc, h⟩ := bind_eq_ok.1 h
        exact bind_eq_ok.2 ⟨⟨c, q⟩, hc, ih hsep h⟩
      next =>
        obtain ⟨c, hc, h⟩ := bind_eq_ok.1 h
        exact bind_eq_ok.2 ⟨c, hc, ih hsep h⟩
      next =>
        split at h
        next => exact ih hsep h
        next =>
          obtain ⟨c, hc, h⟩ := bind_eq_ok.1 h
          exact bind_eq_ok.2 ⟨c, hc, ih hsep h⟩

/-- Arguments that are all options. Selectors may be named behind them. -/
structure OptionsOnly (opts : List String) (a : Arguments) : Prop where
  understood : read opts = .ok a
  unnamed : a.selectors = []
  unseparated : "--" ∉ opts

theorem OptionsOnly.read_append (h : OptionsOnly opts a) (sels : List String) :
    read (opts ++ "--" :: sels) = .ok { a with selectors := sels } := by
  have hread := readFrom_append h.unseparated h.understood sels
  rwa [foldl_addSelector, h.unnamed, List.nil_append] at hread

end Arguments

/-! What is checked. -/

/-- Whether all characters of a text are white space of some kind. -/
def isBlank (s : String) : Bool := isBlankLine s.toList

theorem fromUTF8?_toUTF8 (text : String) : String.fromUTF8? text.toUTF8 = some text := by
  have hvalid : text.toUTF8.IsValidUTF8 := text.isValidUTF8
  rw [String.fromUTF8?, dif_pos hvalid]
  rfl

/-- The lines of a text are checked if they are not blank. -/
theorem inputLines_of_lined (hends : ∀ s ∈ sels, Unbroken s.toList) (h : Lined (sels.map String.toList) text.toList) :
    inputLines text = sels.filter (!isBlank ·) := by
  have hsplit : splitLines text.toList = sels.map String.toList :=
    splitLines_of_lined h (List.forall_mem_map.2 hends)
  rw [inputLines, hsplit, List.filter_map, List.map_map]
  exact (List.map_congr_left fun s _ => String.ofList_toList).trans (List.map_id _)

theorem run_lines (hopts : Arguments.OptionsOnly opts a) (hends : ∀ s ∈ sels, Unbroken s.toList)
    (h : Lined (sels.map String.toList) text.toList) :
    run opts text.toUTF8 = checkAll a.options a.verbose (sels.filter (!isBlank ·)) := by
  rw [run, hopts.understood]
  simp only [hopts.unnamed, List.isEmpty_nil, if_true, fromUTF8?_toUTF8, inputLines_of_lined hends h]

theorem run_arguments (hopts : Arguments.OptionsOnly opts a) (hne : sels ≠ []) (input : ByteArray) :
    run (opts ++ "--" :: sels) input = checkAll a.options a.verbose sels := by
  rw [run, hopts.read_append sels]
  simp only [List.isEmpty_iff, hne, if_false]
  rfl

/-! What the log says in the end. -/

def Notice.counts? : Notice → Option (List (String × String))
  | .log r => if r.level = .info then some r.fields else none
  | _ => none

/-- How many selectors were checked and how many of them failed, as the log has it. -/
def Outcome.counts? (x : Outcome) : Option (List (String × String)) := x.notices.findSome? Notice.counts?

def failures (options : ParseOptions) (verbose : Bool) (sels : List String) : Nat :=
  ((sels.map (check options verbose)).filter (!·.accepted)).length

/-- The records of single selectors are not of the kind that counts. -/
theorem counts?_check {options : ParseOptions} {verbose : Bool} {input : String} {m : Notice}
    (hm : m ∈ (check options verbose input).notices) : m.counts? = none := by
  have hlogged : ∀ r ∈ Log.ofParse input options (parseWith input options), (Notice.log r).counts? = none := by
    intro r hr
    simp only [Log.ofParse, List.mem_cons, List.not_mem_nil, or_false] at hr
    rcases hr with rfl | rfl
    · rfl
    · split
      next p _ => cases p <;> rfl
      next => rfl
  have hverbose (hm : m ∈ if verbose then (Log.ofParse input options (parseWith input options)).map .log else []) :
      m.counts? = none := by
    cases verbose with
    | false => cases hm
    | true =>
        obtain ⟨r, hr, rfl⟩ := List.mem_map.1 hm
        exact hlogged r hr
  simp only [check] at hm
  split at hm
  next => exact hverbose hm
  next =>
    rcases List.mem_append.1 hm with hm | hm
    · exact hverbose hm
    · rw [List.mem_singleton.1 hm]
      rfl

theorem counts?_checkAll (options : ParseOptions) (verbose : Bool) (sels : List String) :
    (checkAll options verbose sels).counts? = some (summary (failures options verbose sels) sels.length).fields := by
  have hnone : ((sels.map (check options verbose)).flatMap (·.notices)).findSome? Notice.counts? = none := by
    refine List.findSome?_eq_none_iff.2 fun m hm => ?_
    obtain ⟨v, hv, hm⟩ := List.mem_flatMap.1 hm
    obtain ⟨s, -, rfl⟩ := List.mem_map.1 hv
    exact counts?_check hm
  rw [Outcome.counts?, checkAll, List.append_assoc, List.findSome?_append, hnone]
  rfl

/-- What a user sees of two runs is the same. -/
structure Alike (x y : Outcome) : Prop where
  output : x.output = y.output
  exitCode : x.exitCode = y.exitCode
  counts : x.counts? = y.counts?

/-! What is answered where all selectors are accepted. -/

theorem check_accepted {options : ParseOptions} {verbose : Bool} {input : String} {x : Parsed}
    (h : parseWith input options = .ok x) :
    (check options verbose input).accepted = true ∧
      (check options verbose input).output = (Output.Outline.ofContent x).block 0 ++ "\n" := by
  simp only [check, h, and_self]

theorem checkAll_accepted {options : ParseOptions} (verbose : Bool)
    (h : ∀ s ∈ sels, ∃ x, parseWith s options = .ok x) :
    (checkAll options verbose sels).exitCode = 0 ∧
      (checkAll options verbose sels).counts? = some (summary 0 sels.length).fields := by
  have hfailed : failures options verbose sels = 0 := by
    rw [failures, List.length_eq_zero_iff, List.filter_eq_nil_iff, List.forall_mem_map]
    intro s hs
    obtain ⟨x, hx⟩ := h s hs
    simp [(check_accepted hx).1]
  refine ⟨if_pos hfailed, ?_⟩
  rw [counts?_checkAll, hfailed]

/-- Every accepted selector is printed, so it shows in the output whether it was checked. -/
theorem output_filter_eq_iff {options : ParseOptions} {verbose : Bool} {keep : String → Bool}
    (h : ∀ s ∈ sels, ∃ x, parseWith s options = .ok x) :
    (checkAll options verbose (sels.filter keep)).output = (checkAll options verbose sels).output ↔
      ∀ s ∈ sels, keep s = true := by
  constructor
  · intro heq s hs
    -- What is kept and what is dropped are all there is, so nothing that has a length was dropped.
    have hlen := congrArg String.length heq
    simp only [checkAll, String.length_join, List.map_map] at hlen
    have hsum := ((List.filter_append_perm keep sels).map
      (String.length ∘ Verdict.output ∘ check options verbose)).sum_eq
    rw [List.map_append, List.sum_append, ← hlen] at hsum
    have hdropped := List.sum_eq_zero_iff.1 (Nat.add_eq_left.1 hsum)
    by_contra hkeep
    obtain ⟨x, hx⟩ := h s hs
    have hzero := hdropped _ (List.mem_map_of_mem (List.mem_filter.2 ⟨hs, by simpa using hkeep⟩))
    rw [Function.comp_apply, Function.comp_apply, (check_accepted hx).2, String.length_append] at hzero
    exact absurd hzero (Nat.succ_ne_zero _)
  · intro hkeep
    rw [List.filter_eq_self.2 hkeep]

theorem eq_of_ascii_blank {c : Char} (hc : CharClass.isAscii c = true) (hs : Unicode.isWhiteSpace c = true)
    (hw : CharClass.isWhitespace c = false) : c = '\x0b' := by
  have hall : ∀ n < 128, Unicode.isWhiteSpace (Char.ofNat n) = true → CharClass.isWhitespace (Char.ofNat n) = false →
      Char.ofNat n = '\x0b' := by decide
  have h := hall c.toNat (of_decide_eq_true hc)
  rw [Char.ofNat_toNat] at h
  exact h hs hw

/-- White space makes no selector, and what else is blank in ASCII begins none. So a selector that is blank has
characters of names in it. -/
theorem exists_not_ascii_of_blank {list : SelectorList} (h : parseSelectorList s d = .ok list)
    (hs : isBlankLine s = true) : ∃ c ∈ s, CharClass.isAscii c = false := by
  obtain ⟨root, hm, hroot⟩ := parseSelectorList_eq_ok h
  obtain ⟨-, t, hrun⟩ := matchRoot_eq_ok hm
  obtain ⟨u, hrow, -⟩ := Spelling.row_of_run (P := fun _ => True) hrun hroot trivial fun _ _ _ _ => trivial
  obtain ⟨v, n, hn⟩ : ∃ v n, Rule.complexSelector.run (Blank.skip s) = some (v, [n]) := by
    cases hrow with
    | last hx | next hx =>
        obtain ⟨n, hn, -⟩ := hx
        exact ⟨_, n, hn⟩
  cases hskip : Blank.skip s with
  | nil =>
      rw [hskip] at hn
      cases (Expression.run_nil_eq_none (e := .call .complexSelector) rfl).symm.trans hn
  | cons c r =>
      have hc : c ∈ s := (Blank.skip_suffix s).subset (hskip ▸ List.mem_cons_self)
      refine ⟨c, hc, ?_⟩
      have hspace : CharClass.isWhitespace c = false := by
        by_contra hspace
        have hr := (Blank.settled_skip s).skip_eq
        rw [hskip, Blank.skip_whitespace (by simpa using hspace)] at hr
        exact absurd (Blank.skip_suffix r).length_le (by simp [hr])
      by_contra hascii
      obtain rfl : c = '\x0b' :=
        eq_of_ascii_blank (by simpa using hascii) (List.all_eq_true.1 hs c hc) hspace
      rw [hskip] at hn
      rcases Rule.begins_of_run hn with ⟨-, htakes⟩ | hbegins
      · cases htakes
      · exact absurd hbegins (by decide)

end SelectorSyntax.Check

namespace SelectorSyntax

open Check Selector Text

variable {a : Arguments} {opts sels : List String} {text : String} {x y : Outcome}

/-- Accepted selectors are checked alike as lines of the input and as arguments if none of them is blank. One that is
blank is left out of the lines, although it has characters of names in it, and is missing from output and counts. -/
theorem run_lines_alike_iff (input : ByteArray) (hopts : Arguments.OptionsOnly opts a)
    (hstart : a.options.startRule = .selectors) (hne : sels ≠ [])
    (hok : ∀ s ∈ sels, ∃ p, parseWith s a.options = .ok p) (hends : ∀ s ∈ sels, Unbroken s.toList)
    (htext : Lined (sels.map String.toList) text.toList) (hx : run opts text.toUTF8 = x)
    (hy : run (opts ++ "--" :: sels) input = y) :
    (Alike x y ↔ ∀ s ∈ sels, isBlank s = false) ∧ (Alike x y → x = y) ∧ x.exitCode = 0 ∧ y.exitCode = 0 ∧
      x.counts? = some (summary 0 (sels.countP (!isBlank ·))).fields ∧
      y.counts? = some (summary 0 sels.length).fields ∧
      ∀ s ∈ sels, isBlank s = true → ∃ c ∈ s.toList, CharClass.isAscii c = false := by
  rw [run_lines hopts hends htext] at hx
  rw [run_arguments hopts hne] at hy
  subst hx hy
  have hkept : ∀ s ∈ sels.filter (!isBlank ·), ∃ p, parseWith s a.options = .ok p := fun s hs =>
    hok s (List.mem_filter.1 hs).1
  obtain ⟨hexit, hcounts⟩ := checkAll_accepted a.verbose hkept
  obtain ⟨hexit', hcounts'⟩ := checkAll_accepted a.verbose hok
  rw [← List.countP_eq_length_filter] at hcounts
  have hname : ∀ s ∈ sels, isBlank s = true → ∃ c ∈ s.toList, CharClass.isAscii c = false := by
    intro s hs hblank
    obtain ⟨p, hp⟩ := hok s hs
    rw [parseWith, hstart] at hp
    obtain ⟨list, hlist, -⟩ := OfNodes.map_eq_ok.1 hp
    exact exists_not_ascii_of_blank hlist hblank
  have hsame : (∀ s ∈ sels, isBlank s = false) → sels.filter (!isBlank ·) = sels := fun h =>
    List.filter_eq_self.2 fun s hs => by rw [h s hs]; rfl
  have hkeep : Alike (checkAll a.options a.verbose (sels.filter (!isBlank ·))) (checkAll a.options a.verbose sels) →
      ∀ s ∈ sels, isBlank s = false := by
    intro h s hs
    simpa using (output_filter_eq_iff hok).1 h.output s hs
  refine ⟨⟨hkeep, fun h => ?_⟩, fun h => ?_, hexit, hexit', hcounts, hcounts', hname⟩
  · rw [hsame h]
    exact ⟨rfl, rfl, rfl⟩
  · rw [hsame (hkeep h)]

/-- Three lines, of which the second is a no-break space. -/
theorem run_lines_alike_iff_spaces :
    ∃ x y, run ["--max-depth", "3", "-v"] "a\n\u00a0\r\nb>c".toUTF8 = x ∧
      run ["--max-depth", "3", "-v", "--", "a", "\u00a0", "b>c"] .empty = y ∧ ¬ Alike x y ∧
      x.exitCode = 0 ∧ y.exitCode = 0 ∧
      x.counts? = some (summary 0 2).fields ∧ y.counts? = some (summary 0 3).fields := by
  have hopts : Arguments.OptionsOnly ["--max-depth", "3", "-v"] ⟨[], none, some 3, true⟩ := ⟨by rfl, rfl, by decide⟩
  have hok : ∀ s ∈ ["a", "\u00a0", "b>c"], ∃ p, parseWith s ⟨.selectors, 3⟩ = .ok p := by
    simp only [List.mem_cons, List.not_mem_nil, or_false, forall_eq_or_imp, forall_eq]
    refine ⟨⟨.selectors [⟨⟨some "a", [], []⟩, []⟩], ?_⟩, ⟨.selectors [⟨⟨some "\u00a0", [], []⟩, []⟩], ?_⟩,
      ⟨.selectors [⟨⟨some "b", [], []⟩, [(.child, ⟨some "c", [], []⟩)]⟩], ?_⟩⟩ <;> cbv
  have htext : Lined (["a", "\u00a0", "b>c"].map String.toList) "a\n\u00a0\r\nb>c".toList :=
    .ended (l := ['a']) (e := ['\n']) (by decide) (.ended (l := ['\u00a0']) (e := ['\r', '\n']) (by decide)
      (.last (by decide)))
  obtain ⟨halike, -, hx, hy, hcounts, hcounts', -⟩ := run_lines_alike_iff .empty hopts rfl (by decide) hok (by decide)
    htext rfl rfl
  exact ⟨_, _, rfl, rfl, fun h => absurd (halike.1 h "\u00a0" (by decide)) (by decide), hx, hy, hcounts, hcounts'⟩

/-- A no-break space is a selector: it names a type. It is left out of the lines and printed as an argument. -/
theorem no_break_space_is_no_line :
    (∃ p, parseWith "\u00a0" {} = .ok p) ∧ Unbroken "\u00a0".toList ∧ Lined ["\u00a0".toList] "\u00a0\n".toList ∧
      (run [] "\u00a0\n".toUTF8).output = "" ∧ (run ["--", "\u00a0"] .empty).output ≠ "" ∧
      (run [] "\u00a0\n".toUTF8).counts? ≠ (run ["--", "\u00a0"] .empty).counts? := by
  have hok : ∀ s ∈ ["\u00a0"], ∃ p, parseWith s {} = .ok p := by
    refine List.forall_mem_singleton.2 ⟨.selectors [⟨⟨some "\u00a0", [], []⟩, []⟩], ?_⟩
    cbv
  have hends : ∀ s ∈ ["\u00a0"], Unbroken s.toList := by decide
  have htext : Lined (["\u00a0"].map String.toList) "\u00a0\n".toList :=
    .ended (l := ['\u00a0']) (e := ['\n']) (by decide) .nil
  have hopts : Arguments.OptionsOnly [] .none := ⟨by rfl, rfl, by decide⟩
  have hx : run [] "\u00a0\n".toUTF8 = checkAll {} false (["\u00a0"].filter (!isBlank ·)) :=
    run_lines hopts hends htext
  have hy : run ["--", "\u00a0"] .empty = checkAll {} false ["\u00a0"] :=
    run_arguments hopts (by decide) .empty
  have hkept : ["\u00a0"].filter (!isBlank ·) = [] := by decide
  have hdiffer : (checkAll {} false (["\u00a0"].filter (!isBlank ·))).output ≠ (checkAll {} false ["\u00a0"]).output :=
    fun h => absurd ((output_filter_eq_iff hok).1 h _ List.mem_cons_self) (by decide)
  have hzero : (checkAll {} false []).counts? = some (summary 0 0).fields :=
    (checkAll_accepted false (List.forall_mem_nil _)).2
  rw [hkept] at hx hdiffer
  refine ⟨hok _ List.mem_cons_self, hends _ List.mem_cons_self, htext, ?_, ?_, ?_⟩
  · rw [hx]
    rfl
  · rw [hy]
    exact fun h => hdiffer h.symm
  · rw [hx, hy, (checkAll_accepted _ hok).2, hzero]
    decide

end SelectorSyntax
