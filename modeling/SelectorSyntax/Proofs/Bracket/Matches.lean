import SelectorSyntax.Proofs.Bracket.Tokens
import SelectorSyntax.Proofs.Grammar.Calls

namespace SelectorSyntax.Bracket

open Grammar Grammar.Expression Text CharClass

variable {e f : Expression} {w s t u : List Char} {ns : List Node} {r : Rule}

/-- A closed comment is never taken for two delimiters: where one may be tried, none begins. -/
def Admits : Rule → List Char → Prop
  | .argument, s | .argItem, s | .argDelim, s => Blank.comment? s = none
  | _, _ => True

def isCloser : Rule → Bool
  | .parenClose | .bracketClose => true
  | _ => false

/-- The walk crosses what a rule matches, over as many brackets as the match has. -/
def Crossed (r : Rule) (s : List Char) : Prop :=
  ∀ t ns, r.run s = some (t, ns) → Crosses s t (Node.nestingOfAll ns)

/-- A walk that ends well from `s` goes over `u`, and is there as it was. -/
def Leads (s u : List Char) : Prop :=
  ∀ d st x, st.opened.length ≤ d → walk d st s = .ok x → walk d st u = .ok x

theorem Leads.refl (s : List Char) : Leads s s := fun _ _ _ _ h => h

theorem Leads.trans (h : Leads s t) (h' : Leads t u) : Leads s u :=
  fun d st x hd hw => h' d st x hd (h d st x hd hw)

theorem Crosses.leads {k : Nat} (h : Crosses s t k) : Leads s t := fun _ _ _ hd hw => (h.of_ok hd hw).2

/-- What the walk makes of the text that an expression matches and of the places where it calls rules.
The match may end with the closer `w` of brackets that were open before it; the walk is followed only
up to that closer. -/
structure Safe (w : List Char) (e : Expression) (s : List Char) : Prop where
  crosses : ∀ {t ns}, e.run Rule.run s = some (t, ns) → Crosses s (w ++ t) (Node.nestingOfAll ns)
  calls : ∀ {r u}, e.Calls s r u → Leads s u ∧ Admits r u

/-- An expression is safe if the rules that it calls are. -/
def Tame (w : List Char) (e : Expression) (s : List Char) : Prop :=
  (∀ r u, e.Calls s r u → Admits r u → isCloser r = false → Crossed r u) → Safe w e s

theorem Tame.of_skips (he : Skips e) (hc : e.callFree = true) : Tame [] e s := by
  intro _
  constructor
  · intro t ns h
    rw [run_callFree hc h]
    exact (he h).crosses
  · intro r u h
    exact absurd h (not_calls_callFree hc)

theorem Tame.call (hs : Admits r s) (hr : isCloser r = false) : Tame [] (.call r) s := by
  intro h
  constructor
  · intro t ns ht
    exact h r s .call hs hr t ns ht
  · intro q u hq
    obtain ⟨rfl, rfl⟩ := calls_call.1 hq
    exact ⟨.refl _, hs⟩

theorem Tame.seq (he : Tame [] e s) (hf : ∀ t ns, e.run Rule.run s = some (t, ns) → Tame w f t) :
    Tame w (.seq e f) s := by
  intro h
  have he := he fun r u hr => h r u (.first hr)
  have hf (t ns) (ht : e.run Rule.run s = some (t, ns)) := hf t ns ht fun r u hr => h r u (.second ht hr)
  constructor
  · intro t ns ht
    obtain ⟨u, ms, ks, hu, hv, rfl⟩ := run_seq_eq_some.1 ht
    rw [Node.nestingOfAll_append]
    exact (he.crosses hu).trans ((hf u ms hu).crosses hv)
  · intro r u hr
    rcases calls_seq.1 hr with hr | ⟨t, ns, ht, hr⟩
    · exact he.calls hr
    · obtain ⟨hl, ha⟩ := (hf t ns ht).calls hr
      exact ⟨(he.crosses ht).leads.trans hl, ha⟩

theorem Tame.choice (he : Tame w e s) (hf : Tame w f s) : Tame w (.choice e f) s := by
  intro h
  have he := he fun r u hr => h r u (.left hr)
  cases hs : e.run Rule.run s with
  | none =>
      have hf := hf fun r u hr => h r u (.right hs hr)
      constructor
      · intro t ns ht
        rcases run_choice_eq_some.1 ht with ht | ⟨-, ht⟩
        · exact he.crosses ht
        · exact hf.crosses ht
      · intro r u hr
        rcases calls_choice.1 hr with hr | ⟨-, hr⟩
        · exact he.calls hr
        · exact hf.calls hr
  | some x =>
      constructor
      · intro t ns ht
        rcases run_choice_eq_some.1 ht with ht | ⟨hn, -⟩
        · exact he.crosses ht
        · rw [hs] at hn
          cases hn
      · intro r u hr
        rcases calls_choice.1 hr with hr | ⟨hn, -⟩
        · exact he.calls hr
        · rw [hs] at hn
          cases hn

theorem Tame.maybe (he : Tame [] e s) : Tame [] (.maybe e) s :=
  Tame.choice he (Tame.of_skips Flat.empty.skips rfl)

theorem Tame.absent (he : Tame [] e s) : Tame [] (.absent e) s := by
  intro h
  have he := he fun r u hr => h r u (.absent hr)
  constructor
  · intro t ns ht
    obtain ⟨-, rfl, rfl⟩ := run_absent_eq_some.1 ht
    exact (Passes.refl _).crosses
  · intro r u hr
    cases hr with
    | absent hr => exact he.calls hr

theorem Tame.star (ht : e.takes = true) (he : ∀ u, Tame [] e u) : Tame [] (.star e) s := by
  intro h
  constructor
  · intro t ns hs
    have hi := (run_star_eq_some Rule.lawful_run ht).1 hs
    clear hs
    induction hi with
    | stop => exact (Passes.refl _).crosses
    | @next s t u ns ms hs _ ih =>
        rw [Node.nestingOfAll_append]
        refine ((he s fun r u hr => h r u (.round hr)).crosses hs).trans (ih fun r u hr => h r u (.again hs hr))
  · intro r u hr
    generalize hg : Expression.star e = g at hr
    induction hr with
    | call | first | second | left | right | absent => cases hg
    | round hr =>
        cases hg
        exact (he _ fun r u hr => h r u (.round hr)).calls hr
    | again hs _ ih =>
        cases hg
        obtain ⟨hl, ha⟩ := ih (fun r u hr => h r u (.again hs hr)) rfl
        exact ⟨((he _ fun r u hr => h r u (.round hr)).crosses hs).leads.trans hl, ha⟩

theorem Tame.plus (ht : e.takes = true) (he : ∀ u, Tame [] e u) : Tame [] (.plus e) s :=
  Tame.seq (he s) fun _ _ _ => Tame.star ht he

/-- The walk is followed up to the closer. -/
theorem Tame.close {c : Char} (hr : isCloser r = true) (hb : body r = .exactly c) :
    Tame [c] (.call r) s := by
  intro _
  constructor
  · intro t ns ht
    have hrun : r.run s = some (t, ns) := ht
    have hsil : r.isSilent = false := by cases r <;> first | rfl | cases hr
    have hbr : r.isBracketed = false := by cases r <;> first | rfl | cases hr
    obtain ⟨ms, hm, rfl⟩ := (Rule.run_node hsil).1 hrun
    rw [hb] at hm
    obtain ⟨rfl, rfl⟩ := run_exactly_eq_some.1 hm
    simp only [ite_self, Node.nestingOfAll_cons, Node.nesting_plain hbr, Node.nestingOfAll_nil]
    exact (Passes.refl _).crosses
  · intro q u hq
    obtain ⟨rfl, rfl⟩ := calls_call.1 hq
    refine ⟨.refl _, ?_⟩
    cases q <;> trivial

theorem tame_ws : Tame [] (maybe ws) s := Tame.of_skips flat_ws.maybe.skips rfl

/-- Behind optional whitespace no comment begins. -/
theorem Tame.seq_ws (hf : ∀ t, Blank.comment? t = none → Tame w f t) :
    Tame w (.seq (.maybe ws) f) s := by
  refine Tame.seq tame_ws fun t ns ht => hf t ?_
  rw [Blank.run_maybe_ws] at ht
  cases ht
  exact (Blank.settled_skip s).comment

theorem Flat.body (hr : r.isToken = true) (hd : r ≠ .argDelim) (hs : r ≠ .string) :
    Flat (body r) := by
  cases r with
  | argDelim => exact absurd rfl hd
  | string => exact absurd rfl hs
  | combinatorSymbol | attributeMatcher =>
      refine Flat.choices fun e he => ?_
      simp only [List.map_cons, List.map_nil, List.mem_cons, List.not_mem_nil, or_false] at he
      rcases he with rfl | rfl | rfl | rfl | rfl | rfl <;> exact Flat.literal (by decide)
  | attributeModifier =>
      exact Flat.seq (Flat.choice (Flat.caseless (by decide)) (Flat.caseless (by decide))) Flat.absent
  | nthName =>
      refine Flat.seq (Flat.choices fun e he => ?_) Flat.absent
      simp only [List.map_cons, List.map_nil, List.mem_cons, List.not_mem_nil, or_false] at he
      rcases he with rfl | rfl | rfl | rfl | rfl | rfl <;> exact Flat.caseless (by decide)
  | nthValue =>
      have hspace := flat_nthSpace.maybe
      have hdigits := flat_digit.plus rfl
      refine Flat.choice (Flat.seq (Flat.choice (Flat.caseless (by decide)) (Flat.caseless (by decide)))
        Flat.absent) (Flat.choice ?_ (Flat.seq flat_sign.maybe (hdigits.seq Flat.absent)))
      refine Flat.seq flat_sign.maybe (Flat.seq (flat_digit.star rfl) ?_)
      refine Flat.seq (Flat.caseless (by decide)) ?_
      exact (hspace.seq (flat_sign.seq (hspace.seq hdigits))).maybe.seq Flat.absent
  | ident =>
      exact Flat.seq (Flat.choice (Flat.literal (by decide))
        (Flat.seq (Flat.maybe (Flat.exactly (by decide))) flat_nmstart)) (flat_nmchar.star rfl)
  | number =>
      have hdigits := flat_digit.plus rfl
      refine Flat.seq flat_sign.maybe (Flat.seq (Flat.choice ?_ hdigits) (flat_nmchar.star rfl))
      exact (flat_digit.star rfl).seq ((Flat.exactly (by decide)).seq hdigits)
  | _ => cases hr

theorem crossed_of_body (hbr : r.isBracketed = false)
    (h : ∀ t ms, (body r).run Rule.run s = some (t, ms) → Crosses s t (Node.nestingOfAll ms)) : Crossed r s := by
  intro t ns hr
  obtain ⟨ms, hm, hw⟩ := Rule.run_eq_some.1 hr
  have hc := h t ms hm
  rw [Rule.wrap] at hw
  split at hw
  next =>
    cases hw
    exact hc
  next =>
    cases hw
    rw [Node.nestingOfAll_cons, Node.nesting_plain hbr]
    split
    next htok =>
      obtain rfl : ms = [] := run_callFree (Rule.callFree_of_isToken htok) hm
      exact hc
    next => simpa using hc

theorem crossed_of_skips (hbr : r.isBracketed = false) (hc : (body r).callFree = true)
    (h : Skips (body r)) :
    Crossed r s := by
  refine crossed_of_body hbr fun t ms hm => ?_
  rw [run_callFree hc hm]
  exact (h hm).crosses

/-- A string is crossed as the reader of quoted text crosses it. -/
theorem crossed_string : Crossed .string s := by
  intro t ns hr
  obtain ⟨ms, hm, rfl⟩ := (Rule.run_node rfl).1 hr
  obtain ⟨v, hv, -⟩ := Quoted.run_string_iff_read.1 ⟨_, hr⟩
  cases s with
  | nil => cases hv
  | cons q s => exact Passes.crosses fun d st => walk_quoted hv

/-- A delimiter may be the slash of a comment that never closes, but not of one that does. -/
theorem unit?_argDelim (hs : Blank.comment? s = none) (h : (body .argDelim).run Rule.run s = some (t, ns)) :
    unit? s = some t ∧ ns = [] := by
  obtain ⟨hn, ⟨c, rfl⟩, rfl⟩ := run_butNot_eq_some.1 h
  have hc : c ∉ ['(', ')', '[', ']', '"', '\'', '\\'] := by
    have hc := run_char_eq_none.1 (run_choice_eq_none.1 hn).1 c t rfl
    simpa using hc
  exact ⟨by rw [unit?_plain (isPlain_of_not_mem hc), hs, Option.getD_none], rfl⟩

theorem crossed_argDelim (hs : Blank.comment? s = none) : Crossed .argDelim s := by
  refine crossed_of_body rfl fun t ms hm => ?_
  obtain ⟨hu, rfl⟩ := unit?_argDelim hs hm
  exact (passes_unit hu).crosses

theorem crossed_token (hr : r.isToken = true) (hs : Admits r s) : Crossed r s := by
  by_cases hd : r = .argDelim
  · subst hd
    exact crossed_argDelim hs
  · by_cases hq : r = .string
    · subst hq
      exact crossed_string
    · exact crossed_of_skips (Rule.isBracketed_of_isToken hr) (Rule.callFree_of_isToken hr) (Flat.body hr hd hq).skips

theorem skips_stringEscape : Skips stringEscape := by
  intro s t ns h
  obtain ⟨u, ms, ks, hu, hv, -⟩ := run_seq_eq_some.1 h
  obtain ⟨rfl, -⟩ := run_exactly_eq_some.1 hu
  rcases run_choice_eq_some.1 hv with hv | ⟨-, hv⟩
  · obtain ⟨rfl, -⟩ := run_literal_eq_some.1 hv
    exact fun d st => walk_escape.trans (walk_inert (by decide))
  · obtain ⟨⟨c, rfl⟩, -⟩ := run_any_eq_some.1 hv
    exact fun d st => walk_escape

theorem skips_comment : Skips comment := by
  intro s t ns h
  rw [Blank.run_comment, Option.map_eq_some_iff] at h
  obtain ⟨u, hu, hx⟩ := h
  cases hx
  exact fun d st => walk_comment hu

/-! The bodies of the other rules. -/

theorem tame_simpleSelector : Tame [] simpleSelector s :=
  Tame.choice (Tame.call trivial rfl) (Tame.choice (Tame.call trivial rfl) (Tame.choice (Tame.call trivial rfl)
    (Tame.choice (Tame.call trivial rfl) (Tame.call trivial rfl))))

theorem tame_attributeValue : Tame [] attributeValue s :=
  Tame.choice (Tame.call trivial rfl) (Tame.call trivial rfl)

theorem tame_pseudoTail : Tame [] pseudoTail s :=
  Tame.choice (Tame.seq (Tame.call trivial rfl) fun _ _ _ => Tame.call trivial rfl)
    (Tame.seq (Tame.absent (Tame.call trivial rfl)) fun _ _ _ =>
      Tame.seq (Tame.call trivial rfl) fun _ _ _ => Tame.maybe (Tame.call trivial rfl))

theorem tame_argItem (hs : Blank.comment? s = none) : Tame [] argItem s :=
  Tame.choice (Tame.call trivial rfl) (Tame.choice (Tame.call trivial rfl) (Tame.choice (Tame.call trivial rfl)
    (Tame.choice (Tame.call trivial rfl) (Tame.call hs rfl))))

/-- Between two tokens all blanks are taken, so that the next token begins at no comment. -/
theorem tame_argument (hs : Blank.comment? s = none) : Tame [] (body .argument) s := by
  refine Tame.seq (tame_argItem hs) fun _ _ _ => Tame.star rfl fun u => ?_
  refine Tame.seq (Tame.maybe (Tame.call trivial rfl)) fun t ns ht => tame_argItem ?_
  have hsp {x : List Char × List Node} (hx : Rule.argSpace.run u = some x) : Blank.comment? x.1 = none := by
    obtain ⟨ms, hm, -⟩ := (Rule.run_node rfl).1 hx
    obtain ⟨-, hx, -⟩ := Blank.run_ws_eq_some.1 hm
    exact hx ▸ (Blank.settled_skip u).comment
  rcases run_maybe_eq_some.1 ht with ht | ⟨hn, rfl, -⟩
  · exact hsp ht
  · exact (Blank.run_ws_eq_none.1 (Rule.run_eq_none.1 hn)).comment

theorem tame_optionalArgument (h : ∀ t, Tame w f t) :
    Tame w (.seq (.maybe ws) (.seq (.maybe (.call .argument)) (.seq (.maybe ws) f))) s :=
  Tame.seq_ws fun _ ht => Tame.seq (Tame.maybe (Tame.call ht rfl)) fun _ _ _ => Tame.seq tame_ws fun t _ _ => h t

theorem tame_body (hs : Admits r s) (htok : r.isToken = false) (hbr : r.isBracketed = false)
    (hcl : isCloser r = false) : Tame [] (body r) s := by
  cases r with
  | combinatorSymbol | attributeMatcher | attributeModifier | nthName | nthValue | argDelim | ident | string
  | number => cases htok
  | attributeSelector | nthArguments | arguments | argGroup => cases hbr
  | parenClose | bracketClose => cases hcl
  | endOfInput => exact Tame.of_skips Flat.absent.skips rfl
  | selectors =>
      exact Tame.seq_ws fun _ _ => Tame.seq (Tame.call trivial rfl) fun _ _ _ =>
        Tame.seq tame_ws fun _ _ _ => Tame.call trivial rfl
  | text => exact tame_optionalArgument fun _ => Tame.call trivial rfl
  | selectorList =>
      exact Tame.seq (Tame.call trivial rfl) fun _ _ _ => Tame.star rfl fun _ =>
        Tame.seq_ws fun _ _ => Tame.seq (Tame.call trivial rfl) fun _ _ _ =>
          Tame.seq tame_ws fun _ _ _ => Tame.call trivial rfl
  | complexSelector =>
      exact Tame.seq (Tame.call trivial rfl) fun _ _ _ => Tame.star rfl fun _ =>
        Tame.seq (Tame.call trivial rfl) fun _ _ _ => Tame.call trivial rfl
  | combinator =>
      exact Tame.choice (Tame.seq_ws fun _ _ => Tame.seq (Tame.call trivial rfl) fun _ _ _ => tame_ws)
        (Tame.call trivial rfl)
  | compoundSelector =>
      exact Tame.choice
        (Tame.seq (Tame.call trivial rfl) fun _ _ _ => Tame.star rfl fun _ => tame_simpleSelector)
        (Tame.plus rfl fun _ => tame_simpleSelector)
  | simpleSelector => exact tame_simpleSelector
  | typeSelector => exact Tame.choice (Tame.call trivial rfl) (Tame.call trivial rfl)
  | comma | universal => exact Tame.of_skips (Flat.exactly (by decide)).skips rfl
  | idSelector | classSelector =>
      exact Tame.seq (Tame.of_skips (Flat.exactly (by decide)).skips rfl) fun _ _ _ => Tame.call trivial rfl
  | attributeValue => exact tame_attributeValue
  | pseudoElement => exact Tame.seq (Tame.of_skips (Flat.literal (by decide)).skips rfl) fun _ _ _ => tame_pseudoTail
  | pseudoClass => exact Tame.seq (Tame.of_skips (Flat.exactly (by decide)).skips rfl) fun _ _ _ => tame_pseudoTail
  | pseudoTail => exact tame_pseudoTail
  | nthSpace => exact Tame.of_skips flat_nthSpace.skips rfl
  | argument => exact tame_argument hs
  | argItem => exact tame_argItem hs
  | descendant | argSpace | ws => exact Tame.of_skips flat_ws.skips rfl
  | nmstart => exact Tame.of_skips flat_nmstart.skips rfl
  | nmchar => exact Tame.of_skips flat_nmchar.skips rfl
  | nonAscii => exact Tame.of_skips flat_nonAscii.skips rfl
  | escape => exact Tame.of_skips flat_escape.skips rfl
  | stringEscape => exact Tame.of_skips skips_stringEscape rfl
  | wsChar => exact Tame.of_skips flat_wsChar.skips rfl
  | comment => exact Tame.of_skips skips_comment rfl

/-- A match that starts with an opener and ends with its closer, and the calls made between them. -/
structure Enclosed (e : Expression) (s : List Char) : Prop where
  crosses : ∀ {t ns}, e.run Rule.run s = some (t, ns) → Crosses s t (Node.nestingOfAll ns + 1)
  calls : ∀ {r u}, e.Calls s r u → ∃ o s', isOpener o = true ∧ s = o :: s' ∧ Leads s' u ∧ Admits r u

theorem Enclosed.of_tame {o c : Char} (ho : isOpener o = true) (hc : openerOf? c = some o)
    (he : ∀ s, Tame [c] e s)
    (h : ∀ r u, (seq (exactly o) e).Calls s r u → Admits r u → isCloser r = false → Crossed r u) :
    Enclosed (seq (exactly o) e) s := by
  constructor
  · intro t ns ht
    obtain ⟨u, ms, ks, hu, hv, rfl⟩ := run_seq_eq_some.1 ht
    have he := he u fun r v hr => h r v (.second hu hr)
    obtain ⟨rfl, rfl⟩ := run_exactly_eq_some.1 hu
    exact (he.crosses hv).enclose ho hc
  · intro r v hr
    rcases calls_seq.1 hr with hr | ⟨u, ms, hu, hv⟩
    · exact absurd hr (not_calls_callFree rfl)
    · have he := he u fun r v hr => h r v (.second hu hr)
      obtain ⟨rfl, rfl⟩ := run_exactly_eq_some.1 hu
      exact ⟨o, u, ho, rfl, he.calls hv⟩

theorem Enclosed.choice (he : (∀ r u, e.Calls s r u → Admits r u → isCloser r = false → Crossed r u) → Enclosed e s)
    (hf : (∀ r u, f.Calls s r u → Admits r u → isCloser r = false → Crossed r u) → Enclosed f s)
    (h : ∀ r u, (Expression.choice e f).Calls s r u → Admits r u → isCloser r = false → Crossed r u) :
    Enclosed (.choice e f) s := by
  have he := he fun r u hr => h r u (.left hr)
  constructor
  · intro t ns ht
    rcases run_choice_eq_some.1 ht with ht | ⟨hn, ht⟩
    · exact he.crosses ht
    · exact (hf fun r u hr => h r u (.right hn hr)).crosses ht
  · intro r u hr
    rcases calls_choice.1 hr with hr | ⟨hn, hr⟩
    · exact he.calls hr
    · exact (hf fun r u hr => h r u (.right hn hr)).calls hr

theorem tame_group {c : Char} (hr : isCloser r = true) (hb : body r = .exactly c) :
    Tame [c] (seqs [maybe ws, maybe (call .argument), maybe ws, call r]) s :=
  tame_optionalArgument fun _ => Tame.close hr hb

theorem tame_nth : Tame [')'] (seqs [maybe ws, call .nthValue, maybe ws, call .parenClose]) s :=
  Tame.seq_ws fun _ _ => Tame.seq (Tame.call trivial rfl) fun _ _ _ => Tame.seq tame_ws fun _ _ _ =>
    Tame.close rfl rfl

theorem tame_attribute : Tame [']'] (seqs [maybe ws, call .ident,
    maybe (seqs [maybe ws, call .attributeMatcher, maybe ws, Grammar.attributeValue,
      maybe (seq (maybe ws) (call .attributeModifier))]), maybe ws, call .bracketClose]) s := by
  refine Tame.seq_ws fun _ _ => Tame.seq (Tame.call trivial rfl) fun _ _ _ => Tame.seq (Tame.maybe ?_) fun _ _ _ =>
    Tame.seq tame_ws fun _ _ _ => Tame.close rfl rfl
  exact Tame.seq_ws fun _ _ => Tame.seq (Tame.call trivial rfl) fun _ _ _ => Tame.seq tame_ws fun _ _ _ =>
    Tame.seq tame_attributeValue fun _ _ _ => Tame.maybe (Tame.seq tame_ws fun _ _ _ => Tame.call trivial rfl)

theorem enclosed_body (hbr : r.isBracketed = true)
    (h : ∀ q u, (body r).Calls s q u → Admits q u → isCloser q = false → Crossed q u) : Enclosed (body r) s := by
  cases r with
  | attributeSelector => exact Enclosed.of_tame rfl rfl (fun _ => tame_attribute) h
  | nthArguments => exact Enclosed.of_tame rfl rfl (fun _ => tame_nth) h
  | arguments => exact Enclosed.of_tame rfl rfl (fun _ => tame_group rfl rfl) h
  | argGroup =>
      exact Enclosed.choice (Enclosed.of_tame rfl rfl fun _ => tame_group rfl rfl)
        (Enclosed.of_tame rfl rfl fun _ => tame_group rfl rfl) h
  | _ => cases hbr

/-- Whatever a rule matches, the walk crosses it, over as many brackets as were matched. -/
theorem crossed (r : Rule) (s : List Char) (hs : Admits r s) (hcl : isCloser r = false) :
    Crossed r s := by
  induction r, s using Rule.call_induction with
  | h r s ih =>
      have ih (q u) (hq : (body r).Calls s q u) (ha : Admits q u) (hc : isCloser q = false) : Crossed q u :=
        ih q u hq ha hc
      cases htok : r.isToken with
      | true => exact crossed_token htok hs
      | false =>
          cases hbr : r.isBracketed with
          | false => exact crossed_of_body hbr fun t ms hm => (tame_body hs htok hbr hcl ih).crosses hm
          | true =>
              intro t ns hr
              obtain ⟨ms, hm, rfl⟩ := (Rule.run_node (by cases r <;> first | rfl | cases hbr)).1 hr
              have hc := (enclosed_body hbr ih).crosses hm
              rw [Node.nestingOfAll_cons, Node.nesting_bracketed hbr, htok]
              simpa using hc

end SelectorSyntax.Bracket
