import SelectorSyntax.Proofs.Bracket.Nesting

namespace SelectorSyntax.Grammar

open SelectorSyntax.Bracket

/-- The closing brackets among the nodes, those inside them left out. -/
def closers (ns : List Node) : List Node := ns.filter fun n => isCloser n.rule

mutual

/-- The pairs of brackets of a match, in the order in which they close. A bracketed rule begins at its
opener and has its closer as a node. -/
def Node.pairs : Node → List (List Char × List Char)
  | ⟨rule, start, _, children⟩ =>
    Node.pairsOfAll children ++ if rule.isBracketed then (closers children).map fun c => (start, c.start) else []

def Node.pairsOfAll : List Node → List (List Char × List Char)
  | [] => []
  | n :: ns => n.pairs ++ Node.pairsOfAll ns

end

@[simp] theorem Node.pairsOfAll_nil : Node.pairsOfAll [] = [] := rfl

@[simp] theorem Node.pairsOfAll_cons (n : Node) (ns : List Node) :
    Node.pairsOfAll (n :: ns) = n.pairs ++ Node.pairsOfAll ns := rfl

@[simp] theorem Node.pairsOfAll_append (ns ms : List Node) :
    Node.pairsOfAll (ns ++ ms) = Node.pairsOfAll ns ++ Node.pairsOfAll ms := by
  induction ns with
  | nil => simp
  | cons n ns ih => simp [ih]

theorem Node.pairs_plain {r : Rule} (hr : r.isBracketed = false) (s t : List Char) (ns : List Node) :
    Node.pairs ⟨r, s, t, ns⟩ = Node.pairsOfAll ns := by
  simp [Node.pairs, hr]

theorem Node.pairs_bracketed {r : Rule} (hr : r.isBracketed = true) (s t : List Char) (ns : List Node) :
    Node.pairs ⟨r, s, t, ns⟩ = Node.pairsOfAll ns ++ (closers ns).map fun c => (s, c.start) := by
  simp [Node.pairs, hr]

@[simp] theorem closers_append (ns ms : List Node) : closers (ns ++ ms) = closers ns ++ closers ms :=
  List.filter_append ..

theorem closers_single {n : Node} (hn : isCloser n.rule = false) : closers [n] = [] := by
  simp [closers, hn]

end SelectorSyntax.Grammar

namespace SelectorSyntax.Bracket

open Grammar Grammar.Expression Text CharClass

/-- The text of a match has the pairs of brackets that its nodes have, and no other brackets. -/
structure Paired (s t : List Char) (ns : List Node) : Prop where
  balanced : Balanced s t (Node.pairsOfAll ns)
  closed : closers ns = []

/-- Expressions that take brackets only by calling rules, and no closer without its opener. -/
inductive Whole : Expression → Prop
  | flat {e} : Flat e → e.callFree = true → Whole e
  | call {r} : r.isSilent = false → isCloser r = false → Whole (call r)
  | seq {e f} : Whole e → Whole f → Whole (seq e f)
  | choice {e f} : Whole e → Whole f → Whole (choice e f)
  | star {e} : e.takes = true → Whole e → Whole (star e)
  | absent {e} : Whole (absent e)

/-- Expressions that end with a closer of brackets which they do not open. -/
inductive Closes (c : Char) : Expression → Prop
  | call {r} : isCloser r = true → body r = exactly c → Closes c (call r)
  | seq {e f} : Whole e → Closes c f → Closes c (seq e f)

/-- The rules that an expression calls match in pairs. -/
def CallsPaired (e : Expression) (s : List Char) : Prop :=
  ∀ q u, e.Calls s q u → q.isSilent = false → isCloser q = false → ∀ t ns, q.run u = some (t, ns) → Paired u t ns

variable {e f : Expression} {r q : Rule} {c o : Char} {s t u : List Char} {ns ms : List Node}

theorem Paired.flat (h : Balanced s t []) : Paired s t [] := ⟨h, rfl⟩

theorem Paired.append (h : Paired s t ns) (h' : Paired t u ms) : Paired s u (ns ++ ms) := by
  constructor
  · rw [Node.pairsOfAll_append]
    exact h.balanced.trans h'.balanced
  · rw [closers_append, h.closed, h'.closed, List.append_nil]

theorem Whole.paired (he : Whole e) (h : CallsPaired e s) (hr : e.run Rule.run s = some (t, ns)) :
    Paired s t ns := by
  induction he generalizing s t ns with
  | flat hf hc =>
      obtain rfl := run_callFree hc hr
      exact .flat (hf hr).balanced
  | call hs hc => exact h _ _ .call hs hc t ns hr
  | seq _ _ ihe ihf =>
      obtain ⟨u, ms, ks, hu, hv, rfl⟩ := run_seq_eq_some.1 hr
      exact (ihe (fun q v hq => h q v (.first hq)) hu).append (ihf (fun q v hq => h q v (.second hu hq)) hv)
  | choice _ _ ihe ihf =>
      rcases run_choice_eq_some.1 hr with hr | ⟨hn, hr⟩
      · exact ihe (fun q v hq => h q v (.left hq)) hr
      · exact ihf (fun q v hq => h q v (.right hn hq)) hr
  | star ht _ ih =>
      have hi := (run_star_eq_some Rule.lawful_run ht).1 hr
      clear hr
      induction hi with
      | stop => exact .flat .nil
      | next hs _ ihi =>
          exact (ih (fun q v hq => h q v (.round hq)) hs).append (ihi fun q v hq => h q v (.again hs hq))
  | absent =>
      obtain ⟨-, rfl, rfl⟩ := run_absent_eq_some.1 hr
      exact .flat .nil

/-- The closer at the end is the only one that is left over. -/
theorem Closes.balanced (hf : Closes c f) (h : CallsPaired f s) (hr : f.run Rule.run s = some (t, ns)) :
    Balanced s (c :: t) (Node.pairsOfAll ns) ∧ ∃ n, n.start = c :: t ∧ closers ns = [n] := by
  induction hf generalizing s ns with
  | @call r hc hb =>
      obtain ⟨ms, hm, rfl⟩ := (Rule.run_node (by cases r <;> first | rfl | cases hc)).1 hr
      rw [hb] at hm
      obtain ⟨rfl, rfl⟩ := run_exactly_eq_some.1 hm
      have hbr : r.isBracketed = false := by cases r <;> first | rfl | cases hc
      constructor
      · simp only [ite_self, Node.pairsOfAll_cons, Node.pairs_plain hbr, Node.pairsOfAll_nil, List.append_nil]
        exact .nil
      · exact ⟨⟨r, c :: t, t, _⟩, rfl, List.filter_cons_of_pos hc⟩
  | seq he _ ih =>
      obtain ⟨u, ms, ks, hu, hv, rfl⟩ := run_seq_eq_some.1 hr
      have hms := he.paired (fun q v hq => h q v (.first hq)) hu
      obtain ⟨hb, n, hn, hk⟩ := ih (fun q v hq => h q v (.second hu hq)) hv
      constructor
      · rw [Node.pairsOfAll_append]
        exact hms.balanced.trans hb
      · exact ⟨n, hn, by rw [closers_append, hms.closed, hk, List.nil_append]⟩

theorem Whole.maybe (he : Whole e) : Whole (maybe e) := .choice he (.flat .empty rfl)

theorem whole_ws : Whole (maybe ws) := .flat flat_ws.maybe rfl

theorem whole_argument : Whole (maybe (call .argument)) := Whole.maybe (.call rfl rfl)

theorem whole_simpleSelector : Whole simpleSelector :=
  .choice (.call rfl rfl) (.choice (.call rfl rfl) (.choice (.call rfl rfl) (.choice (.call rfl rfl) (.call rfl rfl))))

theorem whole_attributeValue : Whole attributeValue := .choice (.call rfl rfl) (.call rfl rfl)

theorem whole_pseudoTail : Whole pseudoTail :=
  .choice (.seq (.call rfl rfl) (.call rfl rfl)) (.seq .absent (.seq (.call rfl rfl) (Whole.maybe (.call rfl rfl))))

theorem whole_argItem : Whole argItem :=
  .choice (.call rfl rfl) (.choice (.call rfl rfl) (.choice (.call rfl rfl) (.choice (.call rfl rfl) (.call rfl rfl))))

theorem whole_body (hs : r.isSilent = false) (htok : r.isToken = false) (hbr : r.isBracketed = false)
    (hcl : isCloser r = false) : Whole (body r) := by
  cases r with
  | selectors => exact .seq whole_ws (.seq (.call rfl rfl) (.seq whole_ws (.call rfl rfl)))
  | text => exact .seq whole_ws (.seq whole_argument (.seq whole_ws (.call rfl rfl)))
  | endOfInput => exact .absent
  | selectorList =>
      exact .seq (.call rfl rfl) (.star rfl (.seq whole_ws (.seq (.call rfl rfl) (.seq whole_ws (.call rfl rfl)))))
  | complexSelector => exact .seq (.call rfl rfl) (.star rfl (.seq (.call rfl rfl) (.call rfl rfl)))
  | combinator => exact .choice (.seq whole_ws (.seq (.call rfl rfl) whole_ws)) (.call rfl rfl)
  | compoundSelector =>
      exact .choice (.seq (.call rfl rfl) (.star rfl whole_simpleSelector))
        (.seq whole_simpleSelector (.star rfl whole_simpleSelector))
  | typeSelector => exact .choice (.call rfl rfl) (.call rfl rfl)
  | comma | universal => exact .flat (.exactly (by decide)) rfl
  | descendant | argSpace => exact .flat flat_ws rfl
  | idSelector | classSelector => exact .seq (.flat (.exactly (by decide)) rfl) (.call rfl rfl)
  | pseudoElement => exact .seq (.flat (.literal (by decide)) rfl) whole_pseudoTail
  | pseudoClass => exact .seq (.flat (.exactly (by decide)) rfl) whole_pseudoTail
  | argument => exact .seq whole_argItem (.star rfl (.seq (Whole.maybe (.call rfl rfl)) whole_argItem))
  | combinatorSymbol | attributeMatcher | attributeModifier | nthName | nthValue | argDelim | ident | string
  | number => cases htok
  | attributeSelector | nthArguments | arguments | argGroup => cases hbr
  | parenClose | bracketClose => cases hcl
  | simpleSelector | attributeValue | pseudoTail | nthSpace | argItem | nmstart | nmchar | nonAscii | escape
  | stringEscape | ws | wsChar | comment => cases hs

/-- What a bracketed rule takes is one pair around the pairs inside it. -/
theorem paired_enclosed (hbr : r.isBracketed = true) (hs : r.isSilent = false) (ho : isOpener o = true)
    (hc : openerOf? c = some o)
    (hf : Closes c f) (h : CallsPaired (seq (exactly o) f) s)
    (hr : (seq (exactly o) f).run Rule.run s = some (t, ms)) : Paired s t [⟨r, s, t, ms⟩] := by
  obtain ⟨u, ks, ls, hu, hv, rfl⟩ := run_seq_eq_some.1 hr
  obtain ⟨hb, n, hn, hl⟩ := hf.balanced (fun q v hq => h q v (.second hu hq)) hv
  obtain ⟨rfl, rfl⟩ := run_exactly_eq_some.1 hu
  constructor
  · rw [Node.pairsOfAll_cons, Node.pairs_bracketed hbr]
    simp only [List.nil_append, hl, List.map_cons, List.map_nil, hn, Node.pairsOfAll_nil, List.append_nil]
    exact hb.enclose ho hc
  · exact closers_single (by cases r <;> first | rfl | cases hbr)

theorem closes_group (hr : isCloser r = true) (hb : body r = exactly c) :
    Closes c (seqs [maybe ws, maybe (call .argument), maybe ws, call r]) :=
  .seq whole_ws (.seq whole_argument (.seq whole_ws (.call hr hb)))

theorem closes_nth : Closes ')' (seqs [maybe ws, call .nthValue, maybe ws, call .parenClose]) :=
  .seq whole_ws (.seq (.call rfl rfl) (.seq whole_ws (.call rfl rfl)))

theorem closes_attribute : Closes ']' (seqs [maybe ws, call .ident,
    maybe (seqs [maybe ws, call .attributeMatcher, maybe ws, Grammar.attributeValue,
      maybe (seq (maybe ws) (call .attributeModifier))]), maybe ws, call .bracketClose]) :=
  .seq whole_ws (.seq (.call rfl rfl) (.seq (Whole.maybe (.seq whole_ws (.seq (.call rfl rfl) (.seq whole_ws
    (.seq whole_attributeValue (Whole.maybe (.seq whole_ws (.call rfl rfl)))))))) (.seq whole_ws (.call rfl rfl))))

theorem paired_bracketed (hbr : r.isBracketed = true) (h : CallsPaired (body r) s)
    (hr : (body r).run Rule.run s = some (t, ms)) : Paired s t [⟨r, s, t, ms⟩] := by
  cases r with
  | attributeSelector => exact paired_enclosed hbr rfl rfl rfl closes_attribute h hr
  | nthArguments => exact paired_enclosed hbr rfl rfl rfl closes_nth h hr
  | arguments => exact paired_enclosed hbr rfl rfl rfl (closes_group rfl rfl) h hr
  | argGroup =>
      rcases run_choice_eq_some.1 hr with hr | ⟨hn, hr⟩
      · exact paired_enclosed hbr rfl rfl rfl (closes_group rfl rfl) (fun q v hq => h q v (.left hq)) hr
      · exact paired_enclosed hbr rfl rfl rfl (closes_group rfl rfl) (fun q v hq => h q v (.right hn hq)) hr
  | _ => cases hbr

/-- A token is a piece, or a few. -/
theorem balanced_token (hr : r.isToken = true) (hs : Admits r s) (h : r.run s = some (t, ns)) :
    Balanced s t [] := by
  obtain ⟨ms, hm, -⟩ := Rule.run_eq_some.1 h
  by_cases hd : r = .argDelim
  · subst hd
    exact .of_unit (unit?_argDelim hs hm).1
  · by_cases hq : r = .string
    · subst hq
      exact .of_unit (unit?_quoted h)
    · exact (Flat.body hr hd hq hm).balanced

/-- Whatever a rule matches, its nodes have the brackets of the text in pairs. -/
theorem paired_of_run (r : Rule) (s : List Char) (ha : Admits r s) (hcl : isCloser r = false) (hs : r.isSilent = false)
    (h : r.run s = some (t, ns)) : Paired s t ns := by
  induction r, s using Rule.call_induction generalizing t ns with
  | h r s ih =>
      obtain ⟨ms, hm, rfl⟩ := (Rule.run_node hs).1 h
      cases htok : r.isToken with
      | true =>
          have hb := balanced_token htok ha h
          constructor
          · simpa [Node.pairs_plain (Rule.isBracketed_of_isToken htok)] using hb
          · exact closers_single hcl
      | false =>
          cases hbr : r.isBracketed with
          | false =>
              have hp := (whole_body hs htok hbr hcl).paired (fun q u hq hqs hqc t ns hr =>
                ih q u hq (leads_of_calls ha hbr hq).2 hqc hqs hr) hm
              constructor
              · simpa [Node.pairs_plain hbr] using hp.balanced
              · exact closers_single hcl
          | true =>
              refine paired_bracketed hbr (fun q u hq hqs hqc t ns hr => ?_) hm
              obtain ⟨-, -, -, -, -, haq⟩ := (enclosed_body hbr fun q u _ ha hc => crossed q u ha hc).calls hq
              exact ih q u hq haq hqc hqs hr

theorem callsPaired (hbr : r.isBracketed = true) (s : List Char) : CallsPaired (body r) s := by
  intro q u hq hqs hqc t ns h
  obtain ⟨-, -, -, -, -, haq⟩ := (enclosed_body hbr fun q u _ ha hc => crossed q u ha hc).calls hq
  exact paired_of_run q u haq hqc hqs h

end SelectorSyntax.Bracket
