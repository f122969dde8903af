import SelectorSyntax.Proofs.Spelling.WrittenArguments

namespace SelectorSyntax.Selector.Spelling

open Grammar Expression Text OfNodes

variable {b k r s t u w x : List Char} {c : Char} {ns : List Node}

/-! What may follow. -/

theorem mem_whitespace (hc : CharClass.isWhitespace c = true) : c ∈ whitespace := by
  by_cases h : c ∈ whitespace
  · exact h
  · rw [isWhitespace_eq_false h] at hc
    cases hc

theorem stops_of_mem (cs : List Char)
    (hcs : cs.all (fun c => !CharClass.isIdentChar c && c ≠ '\\') = true)
    (hk : ∀ c r, k = c :: r → c ∈ cs) : Stops k := by
  intro c r hc
  have h := List.all_eq_true.1 hcs c (hk c r hc)
  simpa using h

/-- Blanks end a name, whatever follows them. -/
theorem Stops.gap (hb : Blanks b) (hne : b ≠ []) (k : List Char) : Stops (b ++ k) := by
  cases hb with
  | nil => exact absurd rfl hne
  | @whitespace c w hc =>
      refine stops_of_mem whitespace rfl fun d r hd => ?_
      cases hd
      exact mem_whitespace hc
  | comment => exact .cons rfl (by decide)

theorem Stops.blanks (hb : Blanks b) (hk : Stops k) : Stops (b ++ k) := by
  by_cases hne : b = []
  · rw [hne]
    exact hk
  · exact .gap hb hne k

/-- Neither a name goes on here nor does an argument begin. -/
structure Apart (k : List Char) : Prop where
  stops : Stops k
  bare : ∀ r, k ≠ '(' :: r

/-! Pseudo-classes and pseudo-elements. -/

theorem run_arguments_none (hk : Apart k) : Rule.arguments.run k = none := by
  cases k with
  | nil => exact run_nil_eq_none (e := call .arguments) rfl
  | cons c k =>
      refine Rule.run_eq_none.2 (run_group_none ?_ k)
      rintro rfl
      exact hk.bare k rfl

theorem escaped_cons {v : String} (hv : WritableName v) (k : List Char) :
    ∃ r, escaped v ++ k = '\\' :: r := by
  obtain ⟨r, hr⟩ := escaped_eq hv
  exact ⟨r ++ k, by rw [hr, List.cons_append]⟩

/-- How deep the brackets of a pseudo-class or pseudo-element lie. -/
def pseudoWithin (p : Selector.Pseudo) (d : Nat) : Prop := ∀ v ∈ p.parameter, max 1 v.depth ≤ d

/-- A name with arguments or without them is read by the second alternative: no escaped name is one of those
that take a formula. -/
theorem run_pseudoTail {v : String} {ms : List Node} (hv : WritableName v)
    (hi : Rule.ident.run (escaped v ++ s) = some (s, ms))
    (ha : (maybe (call .arguments)).run Rule.run s = some (k, ns)) :
    pseudoTail.run Rule.run (escaped v ++ s) = some (k, ms ++ ns) := by
  have hnth : Rule.nthName.run (escaped v ++ s) = none := by
    obtain ⟨r, hr⟩ := escaped_cons hv s
    rw [hr]
    exact run_eq_none_of_begins (e := call .nthName) r rfl rfl
  have hplain : (seq (call .nthName) (call .nthArguments)).run Rule.run (escaped v ++ s) = none :=
    run_seq_eq_none.2 (Or.inl hnth)
  have habsent : (absent (call .nthName)).run Rule.run (escaped v ++ s) = some (escaped v ++ s, []) :=
    run_absent_eq_some.2 ⟨hnth, rfl, rfl⟩
  refine run_choice_eq_some.2 (Or.inr ⟨hplain, run_seq_eq_some.2 ⟨_, [], ms ++ ns, habsent, ?_, rfl⟩⟩)
  exact run_seq_eq_some.2 ⟨s, ms, ns, hi, ha, rfl⟩

theorem writes_pseudo {p : Selector.Pseudo} (hp : p.Writable) (hw : encoded.Pseudo p w) (hk : Apart k) :
    ∃ ns, pseudoTail.run Rule.run (w ++ k) = some (k, ns) ∧
      (∀ n : Node, n.children = ns → OfNodes.pseudo n = .ok p) ∧
      ∀ d, pseudoWithin p d → Node.nestingOfAll ns ≤ d := by
  cases hw with
  | @bare name w hw =>
      obtain rfl : w = escaped name := hw
      obtain ⟨n, hn, hr, hname, hd⟩ := writes_ident hp.name hk.stops
      have hbare : (maybe (call .arguments)).run Rule.run k = some (k, []) :=
        run_maybe_eq_some.2 (Or.inr ⟨run_arguments_none hk, rfl, rfl⟩)
      refine ⟨[n], run_pseudoTail hp.name hn hbare, fun m hm => ?_, fun d _ => ?_⟩
      · rw [OfNodes.pseudo, hm]
        refine bind_eq_ok.2 ⟨name, ?_, rfl⟩
        rw [pseudoName, hr]
        exact hname
      · rw [Node.nestingOfAll_cons, Node.nestingOfAll_nil]
        exact Nat.max_le.2 ⟨hd d trivial, Nat.zero_le d⟩
  | @function name v w u hw hu =>
      obtain rfl : w = escaped name := hw
      obtain ⟨a, ha, har, hav, had⟩ := writes_argument (hp.parameter v rfl) hu k
      have hstops : Stops (u ++ k) := by
        obtain ⟨t, rfl, -⟩ := hu
        exact .cons rfl (by decide)
      obtain ⟨n, hn, hr, hname, hd⟩ := writes_ident hp.name hstops
      rw [List.append_assoc]
      have harguments : (maybe (call .arguments)).run Rule.run (u ++ k) = some (k, [a]) :=
        run_maybe_eq_some.2 (Or.inl ha)
      refine ⟨[n, a], run_pseudoTail hp.name hn harguments, fun m hm => ?_, fun d hwithin => ?_⟩
      · rw [OfNodes.pseudo, hm]
        refine bind_eq_ok.2 ⟨name, ?_, bind_eq_ok.2 ⟨v, hav, rfl⟩⟩
        rw [pseudoName, hr]
        exact hname
      · rw [Node.nestingOfAll_cons, Node.nestingOfAll_cons, Node.nestingOfAll_nil]
        exact Nat.max_le.2 ⟨hd d trivial, Nat.max_le.2 ⟨had d (hwithin v rfl), Nat.zero_le d⟩⟩

/-! Attributes. -/

theorem writes_value {v : AttributeValue} (hv : v.Writable) (hw : encoded.Value v w) (hk : Stops k) :
    ∃ n, Grammar.attributeValue.run Rule.run (w ++ k) = some (k, [n]) ∧ OfNodes.attributeValue n = .ok v ∧
      n.nesting = 0 ∧ Blank.Settled (w ++ k) := by
  cases hw with
  | @quoted v w hw =>
      obtain ⟨n, hn, hr, hf, hd⟩ := writes_string hv hw k
      refine ⟨n, run_choice_eq_some.2 (Or.inl hn), ?_, Nat.le_zero.1 (hd 0 trivial), ?_⟩
      · rw [OfNodes.attributeValue, hr]
        simp only [hf]
        rfl
      · obtain ⟨q, hq, rfl⟩ := hw
        rcases isQuote_cases hq with rfl | rfl
        · exact settled_of_head rfl (by decide) _
        · exact settled_of_head rfl (by decide) _
  | @identifier v w hw =>
      obtain rfl : w = escaped v := hw
      obtain ⟨n, hn, hr, hf, hd⟩ := writes_ident hv hk
      obtain ⟨r, hcons⟩ := escaped_cons hv k
      refine ⟨n, run_choice_eq_some.2 (Or.inr ⟨?_, hn⟩), ?_, Nat.le_zero.1 (hd 0 trivial), ?_⟩
      · rw [hcons]
        exact run_string_none rfl r
      · rw [OfNodes.attributeValue, hr]
        simp only [hf]
        rfl
      · rw [hcons]
        exact settled_of_head rfl (by decide) r

theorem writes_matcher (m : AttributeMatcher) (k : List Char) :
    Writes .attributeMatcher matcher Flat m m.symbol.toList k := by
  have hrun : Rule.attributeMatcher.run (m.symbol.toList ++ k) =
      some (k, [⟨.attributeMatcher, m.symbol.toList ++ k, k, []⟩]) := by
    refine (Rule.run_node rfl).2 ⟨[], ?_, rfl⟩
    cases m <;> rfl
  have htext : (⟨.attributeMatcher, m.symbol.toList ++ k, k, []⟩ : Node).text = m.symbol.toList :=
    Place.between_append _ k
  refine ⟨_, hrun, rfl, ?_, fun d _ => Nat.zero_le d⟩
  rw [matcher, htext, String.ofList_toList]
  cases m <;> rfl

theorem settled_matcher (m : AttributeMatcher) (k : List Char) : Blank.Settled (m.symbol.toList ++ k) := by
  cases m <;> exact settled_of_head rfl (by decide) _

theorem stops_matcher (m : AttributeMatcher) (k : List Char) : Stops (m.symbol.toList ++ k) := by
  cases m <;> exact .cons rfl (by decide)

theorem Flag.letter {f : AttributeModifier} (hf : Flag f w) :
    ∃ c, w = [c] ∧ (c.toLower = 'i' ∨ c.toLower = 's') := by
  cases f with
  | caseInsensitive =>
      obtain ⟨c, rfl, hc⟩ := List.map_eq_singleton_iff.1 (show w.map Char.toLower = ['i'] from hf)
      exact ⟨c, rfl, Or.inl hc⟩
  | caseSensitive =>
      obtain ⟨c, rfl, hc⟩ := List.map_eq_singleton_iff.1 (show w.map Char.toLower = ['s'] from hf)
      exact ⟨c, rfl, Or.inr hc⟩

theorem run_flag (hc : c.toLower = 'i' ∨ c.toLower = 's') (k : List Char) :
    (choice (caseless "i") (caseless "s")).run Rule.run (c :: k) = some (k, []) := by
  have hletter (x : Char) : (char (CharClass.sameLetter x)).run Rule.run (c :: k) =
      if x.toLower = c.toLower then some (k, []) else none := by
    rw [run_char_cons, CharClass.sameLetter]
    simp only [decide_eq_true_eq]
  rcases hc with hc | hc
  · refine run_choice_eq_some.2 (Or.inl ((hletter 'i').trans (if_pos ?_)))
    rw [hc]
    rfl
  · refine run_choice_eq_some.2 (Or.inr ⟨(hletter 'i').trans (if_neg ?_), (hletter 's').trans (if_pos ?_)⟩)
    · rw [hc]
      decide
    · rw [hc]
      rfl

theorem writes_modifier {f : AttributeModifier} (hf : Flag f w) (hk : Stops k) :
    ∃ n, Rule.attributeModifier.run (w ++ k) = some (k, [n]) ∧ AttributeModifier.ofFlag? n.text = some f ∧
      n.nesting = 0 ∧ Blank.Settled (w ++ k) := by
  obtain ⟨c, rfl, hc⟩ := hf.letter
  have habsent : (absent nmchar).run Rule.run k = some (k, []) := run_absent_eq_some.2 ⟨hk.run_nmchar, rfl, rfl⟩
  have hrun : Rule.attributeModifier.run ([c] ++ k) = some (k, [⟨.attributeModifier, [c] ++ k, k, []⟩]) :=
    (Rule.run_node rfl).2 ⟨[], run_seq_eq_some.2 ⟨k, [], [], run_flag hc k, habsent, rfl⟩, rfl⟩
  have htext : (⟨.attributeModifier, [c] ++ k, k, []⟩ : Node).text = [c] := Place.between_append [c] k
  refine ⟨_, hrun, ?_, rfl, ?_⟩
  · rw [Flag] at hf
    rw [htext, AttributeModifier.ofFlag?, hf]
    cases f <;> rfl
  · have hmem : decide (c.toLower ∈ ['i', 's']) = true := by simpa using hc
    refine settled_of_head (isWhitespace_eq_false (not_mem_of (p := fun c => c.toLower ∈ ['i', 's']) rfl hmem)) ?_ k
    rintro rfl
    exact absurd hmem (by decide)

/-- What stands between the name of an attribute and its closing bracket. -/
def comparison : Expression :=
  maybe (seqs [maybe ws, call .attributeMatcher, maybe ws, Grammar.attributeValue,
    maybe (seq (maybe ws) (call .attributeModifier))])

/-- No letter stands before the closing bracket. -/
theorem run_modifier_none (hb : Blanks b) (k : List Char) :
    (maybe (seq (maybe ws) (call .attributeModifier))).run Rule.run (b ++ ']' :: k) = some (b ++ ']' :: k, []) := by
  have hws := maybe_ws_of_blanks hb (settled_of_head (c := ']') rfl (by decide) k)
  refine run_maybe_eq_some.2 (Or.inr ⟨run_seq_eq_none.2 (Or.inr ⟨_, _, hws, ?_⟩), rfl, rfl⟩)
  exact run_eq_none_of_begins (e := call .attributeModifier) k rfl rfl

theorem run_comparison_none (hb : Blanks b) (k : List Char) :
    comparison.run Rule.run (b ++ ']' :: k) = some (b ++ ']' :: k, []) := by
  have hws := maybe_ws_of_blanks hb (settled_of_head (c := ']') rfl (by decide) k)
  refine run_maybe_eq_some.2 (Or.inr ⟨run_seq_eq_none.2 (Or.inr ⟨_, _, hws, run_seq_eq_none.2 (Or.inl ?_)⟩), rfl, rfl⟩)
  exact run_eq_none_of_begins (e := call .attributeMatcher) k rfl rfl

/-- A matcher and a value, with blanks before both, and then what `h` says of the modifier. -/
theorem writes_comparison {b' : List Char} {v : AttributeValue} (m : AttributeMatcher) (hb : Blanks b)
    (hb' : Blanks b') (hv : v.Writable) (hw : encoded.Value v w) (hs : Stops s)
    (h : (maybe (seq (maybe ws) (call .attributeModifier))).run Rule.run s = some (t, ns)) :
    ∃ mn vn, comparison.run Rule.run (b ++ (m.symbol.toList ++ (b' ++ (w ++ s)))) = some (t, mn :: vn :: ns) ∧
      matcher mn = .ok m ∧ OfNodes.attributeValue vn = .ok v ∧
      Node.nestingOfAll (mn :: vn :: ns) = Node.nestingOfAll ns := by
  obtain ⟨vn, hvn, hvr, hvd, hvs⟩ := writes_value hv hw hs
  obtain ⟨mn, hmn, -, hmf, hmd⟩ := writes_matcher m (b' ++ (w ++ s))
  refine ⟨mn, vn, run_maybe_eq_some.2 (Or.inl ?_), hmf, hvr, ?_⟩
  · refine run_seq_eq_some.2 ⟨_, [], _, maybe_ws_of_blanks hb (settled_matcher m _), ?_, rfl⟩
    refine run_seq_eq_some.2 ⟨_, [mn], _, hmn, ?_, rfl⟩
    refine run_seq_eq_some.2 ⟨_, [], _, maybe_ws_of_blanks hb' hvs, ?_, rfl⟩
    exact run_seq_eq_some.2 ⟨_, [vn], ns, hvn, h, rfl⟩
  · rw [Node.nestingOfAll_cons, Node.nestingOfAll_cons, hvd, Nat.le_zero.1 (hmd 0 trivial), Nat.zero_max,
      Nat.zero_max]

theorem writes_match {m : Option AttributeMatch} (hm : ∀ x ∈ m, x.value.Writable)
    (hw : encoded.Match m w)
    (hb : Blanks b) : ∃ ns, comparison.run Rule.run (w ++ (b ++ ']' :: k)) = some (b ++ ']' :: k, ns) ∧
      (∀ place n, attributeMatch place (ns ++ [n]) = .ok m) ∧ Node.nestingOfAll ns = 0 ∧
      Stops (w ++ (b ++ ']' :: k)) := by
  have hend : Stops (b ++ ']' :: k) := (Stops.cons rfl (by decide)).blanks hb
  cases hw with
  | none => exact ⟨[], run_comparison_none hb k, fun place n => rfl, rfl, hend⟩
  | @plain m v b₁ b₂ w hb₁ hb₂ hv =>
      obtain ⟨mn, vn, hrun, hmf, hvr, hd⟩ :=
        writes_comparison m hb₁ hb₂ (hm _ rfl) hv hend (run_modifier_none hb k)
      simp only [List.append_assoc]
      refine ⟨[mn, vn], hrun, fun place n => ?_, hd, (stops_matcher m _).blanks hb₁⟩
      exact bind_eq_ok.2 ⟨m, hmf, bind_eq_ok.2 ⟨v, hvr, rfl⟩⟩
  | @flagged m v f b₁ b₂ b₃ w u hb₁ hb₂ hv hb₃ hgap hu =>
      obtain ⟨fn, hfn, hff, hfd, hfs⟩ := writes_modifier hu hend
      have hmodifier : (maybe (seq (maybe ws) (call .attributeModifier))).run Rule.run
          (b₃ ++ (u ++ (b ++ ']' :: k))) = some (b ++ ']' :: k, [fn]) :=
        run_maybe_eq_some.2 (Or.inl (run_seq_eq_some.2 ⟨_, [], [fn], maybe_ws_of_blanks hb₃ hfs, hfn, rfl⟩))
      obtain ⟨mn, vn, hrun, hmf, hvr, hd⟩ :=
        writes_comparison m hb₁ hb₂ (hm _ rfl) hv (.gap hb₃ hgap _) hmodifier
      simp only [List.append_assoc]
      refine ⟨[mn, vn, fn], hrun, fun place n => ?_, ?_, (stops_matcher m _).blanks hb₁⟩
      · refine bind_eq_ok.2 ⟨m, hmf, bind_eq_ok.2 ⟨v, hvr, ?_⟩⟩
        rw [hff]
        rfl
      · rw [hd, Node.nestingOfAll_cons, hfd]
        rfl

theorem writes_attribute {a : Selector.Attribute} (ha : a.Writable) (hw : encoded.Attribute a w)
    (k : List Char) :
    Writes .attributeSelector attributeSelector (fun d => 1 ≤ d) a w k := by
  cases hw with
  | @mk b₁ b₂ w u hb₁ hw hu hb₂ =>
      obtain rfl : w = escaped a.name := hw
      obtain ⟨ms, hms, hm, hmd, hstops⟩ := writes_match ha.value hu hb₂ (k := k)
      obtain ⟨n, hn, -, hname, hd⟩ := writes_ident ha.name hstops
      have hsettled : Blank.Settled (escaped a.name ++ (u ++ (b₂ ++ ']' :: k))) := by
        obtain ⟨r, hr⟩ := escaped_cons ha.name (u ++ (b₂ ++ ']' :: k))
        rw [hr]
        exact settled_of_head rfl (by decide) r
      have hws : (maybe ws).run Rule.run (b₂ ++ ']' :: k) = some (']' :: k, []) :=
        maybe_ws_of_blanks hb₂ (settled_of_head rfl (by decide) k)
      have hclose : Rule.bracketClose.run (']' :: k) = some (k, [⟨.bracketClose, ']' :: k, k, []⟩]) :=
        (run_exactly_node rfl rfl).2 ⟨rfl, rfl⟩
      have happend : '[' :: (b₁ ++ (escaped a.name ++ (u ++ (b₂ ++ [']'])))) ++ k =
          '[' :: (b₁ ++ (escaped a.name ++ (u ++ (b₂ ++ ']' :: k)))) := by simp
      rw [Writes, happend]
      refine ⟨_, (Rule.run_node rfl).2 ⟨[n] ++ (ms ++ [⟨.bracketClose, ']' :: k, k, []⟩]), ?_, rfl⟩, rfl, ?_,
        fun d hd' => ?_⟩
      · refine run_seq_eq_some.2 ⟨_, [], _, run_exactly_cons _, ?_, rfl⟩
        refine run_seq_eq_some.2 ⟨_, [], _, maybe_ws_of_blanks hb₁ hsettled, ?_, rfl⟩
        refine run_seq_eq_some.2 ⟨_, [n], _, hn, ?_, rfl⟩
        refine run_seq_eq_some.2 ⟨_, ms, _, hms, ?_, rfl⟩
        exact run_seq_eq_some.2 ⟨_, [], _, hws, hclose, rfl⟩
      · exact bind_eq_ok.2 ⟨a.name, hname, bind_eq_ok.2 ⟨a.valueMatch, hm _ _, rfl⟩⟩
      · have hn0 := hd 0 trivial
        have hclose0 : Node.nesting ⟨.bracketClose, ']' :: k, k, []⟩ = 0 := rfl
        rw [Node.nesting_bracketed rfl]
        simp only [Rule.isToken, Bool.false_eq_true, if_false, List.singleton_append, Node.nestingOfAll_cons,
          Node.nestingOfAll_append, hmd, hclose0, Node.nestingOfAll_nil]
        omega

/-! Simple selectors. -/

/-- How deep the brackets of a simple selector lie. -/
def subclassWithin (d : Nat) : Selector.Subclass → Prop
  | .attribute _ => 1 ≤ d
  | .pseudoClass p => pseudoWithin p d
  | .id _ | .className _ => True

/-- The node of a simple selector adds what is written to the simple selectors before it. -/
def WritesSimple (within : Nat → Prop) (add : CompoundSelector → CompoundSelector) (w k : List Char) : Prop :=
  ∃ n, simpleSelector.run Rule.run (w ++ k) = some (k, [n]) ∧ (∀ c, Adds c n (add c)) ∧
    ∀ d, within d → n.nesting ≤ d

/-- A name behind its mark. -/
theorem writes_marked {r : Rule} {m : Char} {v : String}
    (hb : body r = .seq (.exactly m) (.call .ident))
    (hr : r.isSilent = false) (ht : r.isToken = false) (hbr : r.isBracketed = false) (hv : WritableName v)
    (hk : Stops k) :
    Writes r markedName Flat v (m :: escaped v) k := by
  obtain ⟨n, hn, -, hname, hd⟩ := writes_ident hv hk
  have hrun : (body r).run Rule.run (m :: (escaped v ++ k)) = some (k, [n]) := by
    rw [hb]
    exact run_seq_eq_some.2 ⟨_, [], [n], run_exactly_cons m, hn, rfl⟩
  refine ⟨⟨r, m :: escaped v ++ k, k, [n]⟩, ?_, rfl, hname, fun d _ => ?_⟩
  · refine (Rule.run_node hr).2 ⟨[n], hrun, ?_⟩
    rw [ht]
    rfl
  · have hn0 := hd 0 trivial
    rw [Node.nesting_plain hbr, Node.nestingOfAll_cons, Node.nestingOfAll_nil]
    omega

/-- The node of a pseudo-class or pseudo-element, behind its colons. -/
theorem writes_colons {r : Rule} {e : Expression} {m : List Char} {p : Selector.Pseudo}
    (hb : body r = .seq e Grammar.pseudoTail) (hr : r.isSilent = false) (ht : r.isToken = false)
    (hbr : r.isBracketed = false) (he : ∀ s, e.run Rule.run (m ++ s) = some (s, [])) (hp : p.Writable)
    (hw : encoded.Pseudo p w) (hk : Apart k) : Writes r OfNodes.pseudo (pseudoWithin p) p (m ++ w) k := by
  obtain ⟨ns, hns, hread, hd⟩ := writes_pseudo hp hw hk
  have hrun : (body r).run Rule.run (m ++ w ++ k) = some (k, ns) := by
    rw [hb, List.append_assoc]
    exact run_seq_eq_some.2 ⟨_, [], ns, he _, hns, rfl⟩
  refine ⟨⟨r, m ++ w ++ k, k, ns⟩, ?_, rfl, hread _ rfl, fun d hwithin => ?_⟩
  · refine (Rule.run_node hr).2 ⟨ns, hrun, ?_⟩
    rw [ht]
    rfl
  · rw [Node.nesting_plain hbr]
    exact hd d hwithin

theorem run_begins_none {r : Rule} (hr : r.takes = true) (hc : r.begins c = false) (s : List Char) :
    (call r).run Rule.run (c :: s) = none := run_eq_none_of_begins s hr hc

/-- What stands before the groups among the items of an argument does not begin with an opener. -/
theorem run_opener_none {o : Char} (ho : Bracket.isOpener o = true) (s : List Char) :
    ∀ e ∈ [call .string, call .number, call .ident], e.run Rule.run (o :: s) = none := by
  simp only [List.mem_cons, List.not_mem_nil, or_false, forall_eq_or_imp, forall_eq]
  rcases Bracket.opener_cases ho with rfl | rfl
  · exact ⟨run_begins_none rfl rfl _, run_begins_none rfl rfl _, run_begins_none rfl rfl _⟩
  · exact ⟨run_begins_none rfl rfl _, run_begins_none rfl rfl _, run_begins_none rfl rfl _⟩

theorem run_marked_none (x : List Char) :
    ∀ e ∈ [call .idSelector, call .classSelector, call .attributeSelector], e.run Rule.run (':' :: x) = none := by
  simp only [List.mem_cons, List.not_mem_nil, or_false, forall_eq_or_imp, forall_eq]
  exact ⟨run_begins_none rfl rfl _, run_begins_none rfl rfl _, run_begins_none rfl rfl _⟩

/-- What stands before the pseudo-classes among the simple selectors does not begin with one colon. -/
theorem run_earlier_none (hx : ∀ r, x ≠ ':' :: r) :
    ∀ e ∈ [call .idSelector, call .classSelector, call .attributeSelector, call .pseudoElement],
      e.run Rule.run (':' :: x) = none := by
  intro e he
  rcases List.mem_append.1 (show e ∈ [call .idSelector, call .classSelector, call .attributeSelector] ++
    [call .pseudoElement] from he) with he | he
  · exact run_marked_none x e he
  · rw [List.mem_singleton.1 he]
    refine Rule.run_eq_none.2 (run_seq_eq_none.2 (Or.inl (run_literal_eq_none.2 ?_)))
    rintro ⟨t, ht⟩
    cases ht
    exact hx t rfl

theorem pseudo_cons {p : Selector.Pseudo} (hp : p.Writable) (hw : encoded.Pseudo p w) (k : List Char) :
    ∃ r, w ++ k = '\\' :: r := by
  cases hw with
  | @bare name w hw =>
      obtain rfl : w = escaped name := hw
      exact escaped_cons hp.name k
  | @function name v w u hw =>
      obtain rfl : w = escaped name := hw
      rw [List.append_assoc]
      exact escaped_cons hp.name (u ++ k)

theorem writes_subclass {x : Selector.Subclass} (hx : x.Writable) (hw : encoded.Subclass x w)
    (hk : Apart k) :
    WritesSimple (fun d => subclassWithin d x) (fun c => addSubclass c x) w k := by
  cases hw with
  | @id v w hw =>
      obtain rfl : w = escaped v := hw
      obtain ⟨n, hn, hr, hf, hd⟩ := writes_marked (r := .idSelector) rfl rfl rfl rfl hx hk.stops
      exact ⟨n, run_choices_of [] (by simp) hn, fun c => .id hr hf, hd⟩
  | @className v w hw =>
      obtain rfl : w = escaped v := hw
      obtain ⟨n, hn, hr, hf, hd⟩ := writes_marked (r := .classSelector) rfl rfl rfl rfl hx hk.stops
      refine ⟨n, run_choices_of [call .idSelector] ?_ hn, fun c => .className hr hf, hd⟩
      simp only [List.mem_singleton, forall_eq]
      exact run_begins_none rfl rfl _
  | @bracketed a w hw =>
      obtain ⟨n, hn, hr, hf, hd⟩ := writes_attribute hx hw k
      refine ⟨n, run_choices_of [call .idSelector, call .classSelector] ?_ hn, fun c => .attributeTest hr hf, hd⟩
      obtain ⟨r, rfl⟩ : ∃ r, w = '[' :: r := by
        cases hw
        exact ⟨_, rfl⟩
      simp only [List.mem_cons, List.not_mem_nil, or_false, forall_eq_or_imp, forall_eq]
      exact ⟨run_begins_none rfl rfl _, run_begins_none rfl rfl _⟩
  | @pseudoClass p w hw =>
      have hcolon (s : List Char) : (exactly ':').run Rule.run ([':'] ++ s) = some (s, []) := run_exactly_cons ':'
      obtain ⟨n, hn, hr, hf, hd⟩ := writes_colons (r := .pseudoClass) rfl rfl rfl rfl hcolon hx hw hk
      refine ⟨n, run_choices_of
        [call .idSelector, call .classSelector, call .attributeSelector, call .pseudoElement] ?_ hn,
        fun c => .pseudoClass hr hf, hd⟩
      refine run_earlier_none fun t ht => ?_
      obtain ⟨r, hr⟩ := pseudo_cons hx hw k
      cases ht.symm.trans hr

theorem writes_element {p : Selector.Pseudo} (hp : p.Writable) (hw : encoded.Pseudo p w)
    (hk : Apart k) :
    WritesSimple (pseudoWithin p) (fun c => { c with pseudos := c.pseudos ++ [.pseudoElement p] })
      (':' :: ':' :: w) k := by
  have hcolons (s : List Char) : (literal "::").run Rule.run ([':', ':'] ++ s) = some (s, []) :=
    run_literal_eq_some.2 ⟨rfl, rfl⟩
  obtain ⟨n, hn, hr, hf, hd⟩ := writes_colons (r := .pseudoElement) rfl rfl rfl rfl hcolons hp hw hk
  exact ⟨n, run_choices_of [call .idSelector, call .classSelector, call .attributeSelector] (run_marked_none _) hn,
    fun c => .pseudoElement hr hf, hd⟩

end SelectorSyntax.Selector.Spelling
