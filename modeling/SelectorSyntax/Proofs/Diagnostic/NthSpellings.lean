import SelectorSyntax.Proofs.Diagnostic.EscapedNames

namespace SelectorSyntax.Bracket

variable {d : Nat} {s t : List Char} {ps : List (List Char × List Char)} {report : Report}

theorem exists_report_of_passes (h : Passes s t) (hs : ∃ report, scan s d = .ok report) :
    ∃ report, scan t d = .ok report := by
  obtain ⟨report, hs⟩ := hs
  obtain ⟨x, hw⟩ := walk_of_scan hs
  rw [h] at hw
  exact ⟨_, by rw [scan, hw]⟩

/-- No bracket of a balanced text is reported. -/
theorem report_of_balanced (h : Balanced s [] ps) (hs : scan s d = .ok report) : report = .empty := by
  obtain ⟨x, hw⟩ := walk_of_scan hs
  have hrecord := hw
  rw [← record_fst] at hrecord
  obtain ⟨⟨y, qs⟩, hrec, rfl⟩ := Selector.OfNodes.map_eq_ok.1 hrecord
  obtain ⟨rs, hr, -⟩ := h.record hrec
  rw [Bracket.record] at hr
  cases hr
  rw [scan, hw] at hs
  cases hs
  rfl

end SelectorSyntax.Bracket

namespace SelectorSyntax.Diagnostic

open Grammar Selector Text Place SelectorSyntax.Bracket

/-- The errors of two texts say the same of what the texts have in common, which begins at two offsets. -/
structure SameError (m n : Nat) (e f : SyntaxError) : Prop where
  kind : e.kind = f.kind
  message : e.message = f.message
  found : e.found = f.found
  expected : e.expected = f.expected
  help : e.help = f.help
  start : e.location.start.offset + n = f.location.start.offset + m
  stop : e.location.stop.offset + n = f.location.stop.offset + m

/-- Two texts are read as the same selectors, or refused with the same error. -/
inductive ParsedAlike (m n : Nat) : Except SyntaxError SelectorList → Except SyntaxError SelectorList → Prop
  | ok {list} : ParsedAlike m n (.ok list) (.ok list)
  | error {e f} : SameError m n e f → ParsedAlike m n (.error e) (.error f)

variable {a b part after place q w : List Char} {kind : Kind} {message : String} {expected : List Expectation}
  {positives negatives : List Rule}

/-- A character that both texts begin with makes no difference. -/
theorem SameError.of_cons {c : Char} {e f : SyntaxError} (h : SameError (byteSize (c :: a)) (byteSize (c :: b)) e f) :
    SameError (byteSize a) (byteSize b) e f := by
  have hstart := h.start
  have hstop := h.stop
  rw [byteSize_cons, byteSize_cons] at hstart hstop
  exact ⟨h.kind, h.message, h.found, h.expected, h.help, by omega, by omega⟩

theorem SameError.of_about {e f : SyntaxError} (ha : SyntaxError.About (a ++ w) part after e)
    (hb : SyntaxError.About (b ++ w) part after f) (hkind : e.kind = f.kind) (hmessage : e.message = f.message)
    (hexpected : e.expected = f.expected) (hhelp : e.help = f.help) :
    SameError (byteSize a) (byteSize b) e f := by
  refine ⟨hkind, hmessage, ha.found.trans hb.found.symm, hexpected, hhelp, ?_, ?_⟩
  · rw [ha.start.offset, hb.start.offset, byteSize_append, byteSize_append]
    omega
  · rw [ha.stop.offset, hb.stop.offset]
    simp only [byteSize_append]
    omega

theorem SameError.ofSpan (hpart : part ≠ []) (h : part ++ after <:+ q) :
    SameError (byteSize a) (byteSize b)
      (.ofSpan (a ++ q) kind (offsetOf (a ++ q) (part ++ after))
        (offsetOf (a ++ q) (part ++ after) + byteSize part) message expected)
      (.ofSpan (b ++ q) kind (offsetOf (b ++ q) (part ++ after))
        (offsetOf (b ++ q) (part ++ after) + byteSize part) message expected) := by
  obtain ⟨w, rfl⟩ := h
  have hsplit (c : List Char) : c ++ (w ++ (part ++ after)) = (c ++ w) ++ (part ++ after) :=
    (List.append_assoc c w _).symm
  rw [hsplit a, hsplit b, offsetOf_append, offsetOf_append]
  exact .of_about (SyntaxError.about_ofSpan hpart) (SyntaxError.about_ofSpan hpart) rfl rfl rfl rfl

theorem SameError.ofAttempts (h : place <:+ q) :
    SameError (byteSize a) (byteSize b)
      (.ofAttempts (a ++ q) (offsetOf (a ++ q) place) positives negatives .empty)
      (.ofAttempts (b ++ q) (offsetOf (b ++ q) place) positives negatives .empty) := by
  obtain ⟨w, rfl⟩ := h
  rw [← List.append_assoc a, ← List.append_assoc b, offsetOf_append, offsetOf_append]
  -- Without brackets in the report, the kind does not depend on the offset.
  refine .of_about SyntaxError.about_ofAttempts SyntaxError.about_ofAttempts ?_ ?_ rfl ?_ <;>
    simp only [SyntaxError.ofAttempts, Reader.restAt_append] <;> rfl

end SelectorSyntax.Diagnostic

namespace SelectorSyntax.Selector.Spelling

open Diagnostic Grammar Expression Text Place OfNodes SelectorSyntax.Bracket

variable {d k : Nat} {e n q s t y : List Char} {ns ms : List Node} {m : Node} {v : Parameter} {report : Report}

/-- The selectors that are one pseudo-class with a parameter. -/
def single (name : String) (p : Parameter) : SelectorList := [⟨⟨none, [.pseudoClass ⟨name, some p⟩], []⟩, []⟩]

/-- The parameter of a pseudo-class with an escaped `nth` name is read a second time. -/
theorem parse_escaped (he : Rule.ident.run e = some ([], ns)) (hesc : '\\' ∈ e) (hn : Identifier.decode e = .ok n)
    (hw : AnPlusB.isPseudoName (String.ofList n) = true) (hs : scan (':' :: (e ++ '(' :: y)) d = .ok report)
    (ha : Rule.arguments.run ('(' :: y) = some ([], [⟨.arguments, '(' :: y, [], ms⟩])) :
    parseSelectorList (':' :: (e ++ '(' :: y)) d =
      ((escapedNthParameter ⟨.arguments, '(' :: y, [], ms⟩).map (single (String.ofList n))).mapError
        (.ofDefect (':' :: (e ++ '(' :: y))) := by
  have hname : pseudoName ⟨.ident, e ++ '(' :: y, '(' :: y, []⟩ = .ok (String.ofList n) := by
    simp only [pseudoName, OfNodes.identifier, Node.text, between_append, hn]
  have hparameter : pseudoParameter (String.ofList n) ⟨.arguments, '(' :: y, [], ms⟩ =
      escapedNthParameter ⟨.arguments, '(' :: y, [], ms⟩ := if_pos hw
  rw [parse_pseudoClass hs (ne_colon_of_ident (run_ident_paren he y)) (run_pseudoClass_escaped he hesc ha),
    pseudo_eq hname, hparameter]
  cases escapedNthParameter ⟨.arguments, '(' :: y, [], ms⟩ <;> rfl

theorem parse_plain (hw : AnPlusB.isPseudoName (String.ofList n) = true)
    (hs : scan (':' :: (n ++ '(' :: y)) d = .ok report) (hm : Rule.nthArguments.run ('(' :: y) = some ([], [m])) :
    parseSelectorList (':' :: (n ++ '(' :: y)) d =
      ((nthParameter m).map (single (String.ofList n))).mapError (.ofDefect (':' :: (n ++ '(' :: y))) := by
  obtain ⟨k, hk, hr, -⟩ := Rule.isMatch_of_run rfl hm
  cases hk
  have hname : pseudoName ⟨.nthName, n ++ '(' :: y, '(' :: y, []⟩ = .ok (String.ofList n) := by
    simp only [pseudoName, Node.text, between_append]
  have hparameter : pseudoParameter (String.ofList n) m = nthParameter m := by
    simp only [pseudoParameter, hr]
  rw [parse_pseudoClass hs (ne_colon_of_ident (run_ident_of_isPseudoName hw y)) (run_pseudoClass_plain hw hm),
    pseudo_eq hname, hparameter]
  cases nthParameter m <;> rfl

/-- A number is the parameter, or the error is at the number. -/
theorem nthParameter_cases (hm : m.IsMatch) (hr : m.rule = .nthArguments) :
    (∃ p, nthParameter m = .ok p) ∨ ∃ part after, nthParameter m = .error (.outOfRange (part ++ after) part) ∧
      part ≠ [] ∧ part ++ after <:+ m.start := by
  obtain ⟨v, hv, hnth⟩ := exists_nthValue hm hr
  obtain ⟨hvm, hvr⟩ := child?_isMatch hm hv
  rw [nthParameter, hv]
  rcases nthText_cases v.start hnth with ⟨hp, -⟩ | ⟨hx, -⟩
  · exact Or.inl hp
  · refine Or.inr ⟨v.text, v.stop, ?_, hvm.text_ne_nil (by rw [hvr]; rfl), ?_⟩
    · rw [hvm.text_append]
      exact hx
    · rw [hvm.text_append]
      exact hm.child_suffix (child?_mem hv).1

theorem text_whole (r : Rule) (s : List Char) (ns : List Node) : Node.text ⟨r, s, [], ns⟩ = s := by
  simp [Node.text, between]

theorem escapedNthParameter_of_run (hm : Rule.nthArguments.run q = some ([], [m])) :
    escapedNthParameter ⟨.arguments, q, [], ms⟩ = nthParameter m := by
  obtain ⟨k, hk, hr, -, -, hmatch⟩ := Rule.isMatch_of_run rfl hm
  cases hk
  obtain ⟨v, hv, -⟩ := exists_nthValue hmatch hr
  rw [escapedNthParameter, text_whole, Rule.parse, hm, nthParameter]
  simp only [hv, List.append_nil]

theorem escapedNthParameter_of_none (hm : Rule.nthArguments.run q = none) :
    escapedNthParameter ⟨.arguments, q, [], ms⟩ = .error (.notNth (Rule.nthArguments.failure q)) := by
  rw [escapedNthParameter, text_whole, Rule.parse, hm]
  simp only [List.append_nil]

/-- A name that takes a number and has none is refused where the argument by itself is. -/
theorem parse_plain_of_none (hw : AnPlusB.isPseudoName (String.ofList n) = true)
    (hs : scan (':' :: (n ++ '(' :: y)) d = .ok report) (hm : Rule.nthArguments.run ('(' :: y) = none) :
    parseSelectorList (':' :: (n ++ '(' :: y)) d =
      .error (.ofAttempts (':' :: (n ++ '(' :: y))
        (offsetOf (':' :: (n ++ '(' :: y)) (Rule.nthArguments.failure ('(' :: y)).place)
        (Rule.nthArguments.failure ('(' :: y)).positives (Rule.nthArguments.failure ('(' :: y)).negatives report) := by
  obtain ⟨k, r, hk, hl⟩ := leaves_nthArguments hm
  obtain ⟨hnone, hpseudo⟩ := leaves_pseudoClass hw hm hl hk
  have hx := ne_colon_of_ident (run_ident_of_isPseudoName hw y)
  have hlt : k < (':' :: (n ++ '(' :: y)).length := by
    rw [List.length_cons, List.length_append]
    omega
  have hroot := (run_selectors_none (run_compoundSelector_none hx hnone).2).2.2
  have hplace : (':' :: (n ++ '(' :: y)).drop ((':' :: (n ++ '(' :: y)).length - k) =
      ('(' :: y).drop (('(' :: y).length - k) := by
    have hlength : (':' :: (n ++ '(' :: y)).length - k = (':' :: n).length + (('(' :: y).length - k) := by
      simp only [List.length_cons, List.length_append] at hk ⊢
      omega
    rw [hlength]
    exact List.drop_length_add_append _
  have hfailure : Rule.selectors.failure (':' :: (n ++ '(' :: y)) = Rule.nthArguments.failure ('(' :: y) := by
    rw [Rule.failure_of_leaves (leaves_selectors hx hnone hpseudo hlt) hlt, Rule.failure_of_leaves hl hk, hplace]
  rw [parseSelectorList, matchRoot_of_none hs hroot, hfailure]
  rfl

/-- Both spellings of a name are passed over alike. -/
theorem balanced_name (h : Rule.ident.run s = some (t, ns)) : Balanced (':' :: s) t [] :=
  .unit (unit?_inert rfl) (balanced_token (r := .ident) rfl trivial h)

/-- The argument of a pseudo-class is balanced if it is accepted by itself. -/
theorem balanced_argument (ht : parseTextFragment t k = .ok v) : ∃ ps, Balanced (t ++ [')']) [')'] ps := by
  obtain ⟨root, -, hroot, -⟩ := parseTextFragment_eq_ok ht
  obtain ⟨-, u, hrun⟩ := matchRoot_eq_ok hroot
  obtain rfl := eq_nil_of_run (Or.inr rfl) hrun
  have hb := (paired_of_run .text t trivial rfl rfl hrun).balanced
  rw [← List.append_nil t, ← List.nil_append []] at hb
  exact Balanced.replace (u := []) (guards_mute ⟨by decide, by decide⟩) trivial hb

/-- An `nth` name takes the same arguments however it is spelled, and refuses the others in the same way. -/
theorem nth_spellings_alike (he : Rule.ident.run e = some ([], ns)) (hesc : '\\' ∈ e)
    (hn : Identifier.decode e = .ok n) (hw : AnPlusB.isPseudoName (String.ofList n) = true)
    (ht : parseTextFragment t k = .ok v) (hs : scan (':' :: (n ++ '(' :: (t ++ [')']))) d = .ok report) :
    ParsedAlike (byteSize e) (byteSize n) (parseSelectorList (':' :: (e ++ '(' :: (t ++ [')']))) d)
      (parseSelectorList (':' :: (n ++ '(' :: (t ++ [')']))) d) := by
  obtain ⟨ps, hb⟩ := balanced_argument ht
  obtain ⟨ms, ha⟩ := run_arguments_of_balanced hb
  have hpe := (balanced_name (run_ident_paren he (t ++ [')']))).passes
  have hplain := balanced_name (run_ident_of_isPseudoName hw (t ++ [')']))
  obtain ⟨report', hs'⟩ : ∃ report, scan (':' :: (e ++ '(' :: (t ++ [')']))) d = .ok report :=
    exists_report_of_passes (fun d st => (hplain.passes d st).trans (hpe d st).symm) ⟨report, hs⟩
  obtain rfl := report_of_balanced (hplain.trans (.enclose rfl rfl hb)) hs
  rw [parse_escaped he hesc hn hw hs' ha]
  cases hrun : Rule.nthArguments.run ('(' :: (t ++ [')'])) with
  | none =>
      rw [escapedNthParameter_of_none hrun, parse_plain_of_none hw hs hrun]
      exact .error (SameError.of_cons (.ofAttempts (a := ':' :: e) (b := ':' :: n) (List.drop_suffix _ _)))
  | some x =>
      obtain ⟨u, us⟩ := x
      obtain ⟨k, hk, -, -, -, hmatch⟩ := Rule.isMatch_of_run rfl ha
      cases hk
      obtain rfl : u = [] := eq_nil_of_run_nthArguments hmatch rfl (by rwa [text_whole])
      obtain ⟨m, rfl, hmr, hms, -, hm⟩ := Rule.isMatch_of_run rfl hrun
      rw [escapedNthParameter_of_run hrun, parse_plain hw hs hrun]
      rcases nthParameter_cases hm hmr with ⟨p, hp⟩ | ⟨part, after, hp, hpart, hsuffix⟩
      · rw [hp]
        exact .ok
      · rw [hp]
        rw [hms] at hsuffix
        exact .error (SameError.of_cons (.ofSpan (a := ':' :: e) (b := ':' :: n) hpart hsuffix))

/-- An item behind the number is refused in both spellings. -/
theorem nth_spellings_alike_refused :
    Rule.nthArguments.run "(2 [x])".toList = none ∧
      ParsedAlike 9 7 (parseSelectorList ":\\6eth-col(2 [x])".toList 2)
        (parseSelectorList ":nth-col(2 [x])".toList 2) := by
  have he : Rule.ident.run "\\6eth-col".toList = some ([], [⟨.ident, "\\6eth-col".toList, [], []⟩]) := by cbv
  have hn : Identifier.decode "\\6eth-col".toList = .ok "nth-col".toList := by cbv
  have ht : parseTextFragment "2 [x]".toList 1 =
      .ok (.list [.text "2", .text " ", .list [.text "[", .text "x", .text "]"]]) := by cbv
  have hs : scan ":nth-col(2 [x])".toList 2 = .ok ⟨[], []⟩ := by cbv
  refine ⟨by cbv, ?_⟩
  exact nth_spellings_alike (e := "\\6eth-col".toList) (n := "nth-col".toList) he (by decide) hn (by decide) ht hs

end SelectorSyntax.Selector.Spelling
