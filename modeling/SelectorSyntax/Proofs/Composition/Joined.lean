import SelectorSyntax.Proofs.Assembly.Pseudos
import SelectorSyntax.Proofs.Completion.Lists
import SelectorSyntax.Proofs.Composition.Arguments
import SelectorSyntax.Proofs.Spelling.Fragments

namespace SelectorSyntax.Selector

/-- In no argument of the list anything that begins like a comment was read as delimiters. -/
def SelectorList.Clear (list : SelectorList) : Prop :=
  ∀ x ∈ list, ∀ c ∈ x.compounds, ∀ p ∈ c.allPseudos, ∀ v ∈ p.parameter, v.Clear

namespace Spelling

open Grammar Expression Text OfNodes

variable {P : Node → Prop} {k s t u v : List Char} {d : Nat} {n m root : Node} {ns : List Node} {c : Combinator}
  {x y : ComplexSelector} {ps : List (Combinator × CompoundSelector)} {xs ys : SelectorList}

/-! What is matched at the end of a text is matched in front of `k` as well. -/

/-- At most `d` brackets of a node lie inside one another, and its arguments are taken in front of `k`. -/
def Held (d : Nat) (k : List Char) (n : Node) : Prop := Shallow d n ∧ Lasting [] k [n]

theorem Shallow.child (h : Shallow d n) (hm : m ∈ n.children) : Shallow d m :=
  Nat.le_trans (Node.nesting_le_of_mem hm) (Nat.le_trans (nestingOfAll_children_le n) h)

theorem Held.child (h : Held d k n) (hm : m ∈ n.children) : Held d k m := by
  obtain ⟨hd, hl⟩ := h
  refine ⟨hd.child hm, ?_⟩
  cases n
  exact hl.children.of_mem hm

/-- A complex selector is matched as a compound and links. -/
theorem takes_iff : Takes P s t x ↔
    ∃ u n ns, Rule.compoundSelector.run s = some (u, [n]) ∧ Iterates (link.run Rule.run) u t ns ∧
      compound n = .ok x.head ∧ chain ns = .ok x.tail ∧ P ⟨.complexSelector, s, t, n :: ns⟩ := by
  constructor
  · rintro ⟨_, hn, hx, hP⟩
    obtain ⟨u, n, ns, hu, hl, hnode⟩ := run_complex_eq_some.1 hn
    cases hnode
    obtain ⟨_, _, _, _, hch, hhead, htail, rfl⟩ := complex_eq_ok hx
    cases hch
    exact ⟨u, n, ns, hu, hl, hhead, htail, hP⟩
  · rintro ⟨u, n, ns, hu, hl, hhead, htail, hP⟩
    refine ⟨_, run_complex_eq_some.2 ⟨u, n, ns, hu, hl, rfl⟩, ?_, hP⟩
    exact bind_eq_ok.2 ⟨x.head, hhead, bind_eq_ok.2 ⟨x.tail, htail, rfl⟩⟩

theorem shallow_complex : Shallow d ⟨.complexSelector, s, t, ns⟩ ↔ Node.nestingOfAll ns ≤ d := by
  rw [Shallow, Node.nesting_plain rfl]

theorem Takes.keep (h : Takes (Held d k) s t x) (hk : Closed (t ++ k)) (he : Escape.Ends k) :
    Takes (Shallow d) (s ++ k) (t ++ k) x := by
  obtain ⟨n, hn, hx, hd, hl⟩ := h
  rw [← List.append_nil s, ← List.append_nil t] at hn
  obtain ⟨ms, hm, hb⟩ := keeps_complex hk he hn hl
  obtain ⟨n', hn', -, -, -, hmatch⟩ := Rule.isMatch_of_run (r := .complexSelector) rfl hn
  obtain ⟨m, rfl, -, -, -, hmatch'⟩ := Rule.isMatch_of_run (r := .complexSelector) rfl hm
  cases hn'
  refine ⟨m, hm, eq_ok_of_bare (fun _ => complex_bare) hmatch hmatch' (List.cons.inj hb).1 hx, ?_⟩
  have hnesting := Node.nestingOfAll_congr hb
  simp only [Node.nestingOfAll_cons, Node.nestingOfAll_nil, Nat.max_zero] at hnesting
  exact Nat.le_trans hnesting.le hd

/-! Two selectors with a combinator between them. -/

theorem writes_between (hc : c ∈ Combinator.explicit) (ht : Blank.skip t = []) (hu : Blank.Settled (Blank.skip u))
    (hsymbol : Rule.combinatorSymbol.run (Blank.skip u) = none) :
    ∃ n, Rule.combinator.run (t ++ (c.symbol.toList ++ u)) = some (Blank.skip u, [n]) ∧ combinator n = .ok c ∧
      n.nesting = 0 := by
  obtain ⟨b₁, hb₁, ht₁⟩ := blanks_skip t
  obtain ⟨b₂, hb₂, hu₂⟩ := blanks_skip u
  rw [ht, List.append_nil] at ht₁
  obtain ⟨n, hn, -, hread, hd⟩ := writes_combinator (.sign hc hb₁ hb₂) hu hsymbol
  refine ⟨n, ?_, hread, Nat.le_zero.1 (hd 0 trivial)⟩
  have happend : t ++ (c.symbol.toList ++ u) = b₁ ++ (c.symbol.toList ++ b₂) ++ Blank.skip u := by
    conv_lhs => rw [ht₁, hu₂]
    simp only [List.append_assoc]
  rw [happend]
  exact hn

theorem ends_symbol (hc : c ∈ Combinator.explicit) (u : List Char) : Escape.Ends (c.symbol.toList ++ u) := by
  obtain ⟨d, r, hd, hmem⟩ := symbol_head hc u
  rw [hd]
  simp only [List.mem_cons, List.not_mem_nil, or_false] at hmem
  rcases hmem with rfl | rfl | rfl | rfl <;> exact .cons rfl rfl

/-- Where more links follow a selector, they are links of it. -/
theorem Takes.extend (h : Takes (Held d k) s t x) (he : Escape.Ends k)
    (hlink : Iterates (link.run Rule.run) (t ++ k) v ns) (hne : ns ≠ []) (hread : chain ns = .ok ps)
    (hd : Node.nestingOfAll ns ≤ d) : Takes (Shallow d) (s ++ k) v ⟨x.head, x.tail ++ ps⟩ := by
  obtain ⟨a, n, ms, hn, hms, hhead, htail, hshallow, hl⟩ := takes_iff.1 h
  obtain ⟨hl₁, hl₂⟩ := lasting_append.1 (show Lasting [] k ([n] ++ ms) from hl.children)
  rw [← List.append_nil s, ← List.append_nil a] at hn
  rw [← List.append_nil a, ← List.append_nil t] at hms
  -- In front of a link a link is taken as it was, and so the compound in front of all of them.
  have hfollows : Follows (t ++ k) := by
    cases hlink with
    | stop => exact absurd rfl hne
    | next hs _ => exact follows_of_link ⟨_, hs⟩
  obtain ⟨ks, hks, hb, hnext⟩ :=
    rounds_keep (keeps_link hfollows he) (fun _ _ hx => keeps_link (follows_of_link hx) he) hms hl₂ hlink
  have hfollows' : Follows (a ++ k) := by
    rcases hnext with rfl | ⟨_, hx⟩
    · exact hfollows
    · exact follows_of_link hx
  obtain ⟨js, hj, hb'⟩ := keeps_compound hfollows' he hn hl₁
  obtain ⟨j, rfl, -, -, -, hjm⟩ := Rule.isMatch_of_run (r := .compoundSelector) rfl hj
  obtain ⟨n', hn', -, -, -, hnm⟩ := Rule.isMatch_of_run (r := .compoundSelector) rfl hn
  cases hn'
  have hmatches : ∀ m ∈ ks, m.IsMatch := fun m hm => (links_of_iterates hks).isMatch m (List.mem_append_left ns hm)
  have hhead' := eq_ok_of_bare (fun _ => compound_bare) hnm hjm (List.cons.inj hb').1 hhead
  have htail' := chain_of_bare (links_of_iterates hms).isMatch hmatches hb htail
  have hdeep : Node.nestingOfAll ([j] ++ (ks ++ ns)) ≤ d := by
    have hd₁ : Node.nestingOfAll ([n] ++ ms) ≤ d := shallow_complex.1 hshallow
    rw [Node.nestingOfAll_append] at hd₁
    rw [Node.nestingOfAll_append, Node.nestingOfAll_append, Node.nestingOfAll_congr hb', Node.nestingOfAll_congr hb]
    omega
  exact takes_iff.2 ⟨a ++ k, j, ks ++ ns, hj, hks, hhead', chain_append ks htail' hread, shallow_complex.2 hdeep⟩

/-- Where one selector ends and another one begins behind a combinator, the two are one selector. -/
theorem Takes.join (hc : c ∈ Combinator.explicit) (h : Takes (Held d (c.symbol.toList ++ u)) s t x)
    (ht : Blank.skip t = []) (h' : Takes (Shallow d) (Blank.skip u) v y) :
    Takes (Shallow d) (s ++ (c.symbol.toList ++ u)) v ⟨x.head, x.tail ++ (c, y.head) :: y.tail⟩ := by
  obtain ⟨a, n, ns, hn, hns, hhead, htail, hd⟩ := takes_iff.1 h'
  have hconsumes : (call .compoundSelector).Consumes (Blank.skip u) a := ⟨_, hn⟩
  obtain ⟨m, hm, hread, hm0⟩ :=
    writes_between hc ht (settled_of_consumes rfl (by decide) hconsumes) (run_symbol_none hconsumes)
  have hlink : link.run Rule.run (t ++ (c.symbol.toList ++ u)) = some (a, [m, n]) :=
    run_seq_eq_some.2 ⟨_, [m], [n], hm, hn, rfl⟩
  have hchain : chain (m :: n :: ns) = .ok ((c, y.head) :: y.tail) :=
    bind_eq_ok.2 ⟨c, hread, bind_eq_ok.2 ⟨y.head, hhead, bind_eq_ok.2 ⟨y.tail, htail, rfl⟩⟩⟩
  refine h.extend (ends_symbol hc u) (.next hlink hns) nofun hchain ?_
  rw [List.cons_append, Node.nestingOfAll_cons, hm0, Nat.zero_max]
  exact shallow_complex.1 hd

/-! Rows in front of another text. -/

theorem skip_ended (ht : Blank.skip t = []) (hk : Blank.Settled k) : Blank.skip (t ++ k) = k := by
  have h := skip_append (s := t) (k := k)
  rw [ht] at h
  exact h hk

theorem Row.settled (h : Row P s t xs) : Blank.Settled s := by
  cases h with
  | last h | next h =>
      obtain ⟨n, hn, -⟩ := h
      exact settled_of_consumes (e := call .complexSelector) rfl (by decide) ⟨_, hn⟩

/-- A row goes on behind its last selector as whatever begins with that one does. -/
theorem Row.extend (h : Row (Held d k) s t (xs ++ [x])) (he : Escape.Ends k)
    (hlast : ∀ a, Takes (Held d k) a t x → Row (Shallow d) (a ++ k) v ys) : Row (Shallow d) (s ++ k) v (xs ++ ys) := by
  generalize hzs : xs ++ [x] = zs at h
  induction h generalizing xs with
  | last h =>
      cases xs with
      | nil =>
          cases hzs
          exact hlast _ h
      | cons z xs => exact absurd (List.cons.inj hzs).2 (List.append_ne_nil_of_right_ne_nil xs (List.cons_ne_nil x []))
  | @next s t u v z zs h ht hrest ih =>
      obtain ⟨xs', rfl, rfl⟩ : ∃ xs', xs = z :: xs' ∧ zs = xs' ++ [x] := by
        cases xs with
        | nil => exact absurd (List.cons.inj hzs).2.symm hrest.ne_nil
        | cons y xs =>
            cases hzs
            exact ⟨xs, rfl, rfl⟩
      have hrow := ih hlast rfl
      have hskip : Blank.skip (t ++ k) = ',' :: (u ++ k) := by
        rw [skip_append, ht, List.cons_append]
        rw [ht]
        exact settled_of_head rfl (by decide) (u ++ k)
      refine .next (h.keep (closed_of_comma hskip) he) hskip ?_
      rw [skip_append hrow.settled]
      exact hrow

/-- In a text that is read as clear selectors, every argument is taken whatever follows the text. -/
theorem lasting_of_clear {list : SelectorList} (h : root.IsMatch) (hr : root.rule = .selectors)
    (hs : OfNodes.selectors root = .ok list) (hclear : list.Clear) (k : List Char) : Lasting [] k [root] := by
  intro m hm hmatch hmr s v hstart hstop
  simp only [Node.familyOfAll, List.append_nil] at hm
  obtain ⟨x, hx, c, hc, p, hp, w, hw, hread⟩ := exists_parameter_of_selectors h hr hs hm hmr
  have hconsumes := Bracket.consumes_arguments_of_clear hmatch hmr hread (hclear x hx c hc p hp w hw) k
  rwa [hstart, hstop, List.append_nil, List.append_nil] at hconsumes

end Spelling

end SelectorSyntax.Selector

namespace SelectorSyntax

open Grammar Selector Selector.Spelling Text

variable {k s v s₁ s₂ : List Char} {d : Nat} {x y : ComplexSelector} {xs ys init rest : SelectorList}

theorem row_of_parse (h : parseSelectorList s d = .ok xs) :
    ∃ u, Row (Shallow d) (Blank.skip s) u xs ∧ Blank.skip u = [] := by
  obtain ⟨root, hm, hs⟩ := parseSelectorList_eq_ok h
  obtain ⟨-, t, hrun⟩ := matchRoot_eq_ok hm
  have hd : Shallow d root := Bracket.nesting_le (r := .selectors) trivial rfl hm
  exact row_of_run hrun hs hd fun _ hn _ hm => hn.child hm

/-- What is read in front of `k` depends on the last selector and `k` only. -/
theorem parse_extend (h : parseSelectorList s d = .ok (init ++ [x])) (hclear : SelectorList.Clear (init ++ [x]))
    (he : Escape.Ends k) (hv : Blank.skip v = [])
    (hlast : ∀ a t, Blank.skip t = [] → Takes (Held d k) a t x → Row (Shallow d) (a ++ k) v ys) :
    parseSelectorList (s ++ k) d = .ok (init ++ ys) := by
  obtain ⟨root, hm, hs⟩ := parseSelectorList_eq_ok h
  obtain ⟨-, t, hrun⟩ := matchRoot_eq_ok hm
  obtain ⟨n, hn, hr, -, -, hmatch⟩ := Rule.isMatch_of_run (r := .selectors) rfl hrun
  cases hn
  have hheld : Held d k root :=
    ⟨Bracket.nesting_le (r := .selectors) trivial rfl hm, lasting_of_clear hmatch hr hs hclear k⟩
  obtain ⟨u, hrow, hu⟩ := row_of_run hrun hs hheld fun _ hn _ hm => hn.child hm
  have hextended := hrow.extend he fun a ha => hlast a u hu ha
  rw [← skip_append hextended.settled] at hextended
  obtain ⟨root', hrun', hread, hd⟩ := run_of_row hextended hv
  obtain ⟨report, hscan⟩ := scan_of_nesting hrun' (hd d fun _ h => h)
  exact parseSelectorList_of_run hscan hrun' hread

/-- Two texts that are read as selectors are read as the selectors of both if there is a comma between them. If there is
a combinator between them, the last selector of the first and the first one of the second become one. -/
theorem parseSelectorList_join (h₁ : parseSelectorList s₁ d = .ok (init ++ [x]))
    (h₂ : parseSelectorList s₂ d = .ok (y :: rest)) (hclear : SelectorList.Clear (init ++ [x])) :
    parseSelectorList (s₁ ++ ',' :: s₂) d = .ok (init ++ [x, y] ++ rest) ∧
      ∀ c ∈ Combinator.explicit, parseSelectorList (s₁ ++ (c.symbol.toList ++ s₂)) d =
        .ok (init ++ [⟨x.head, x.tail ++ [(c, y.head)] ++ y.tail⟩] ++ rest) := by
  obtain ⟨v, hrow, hv⟩ := row_of_parse h₂
  have hcomma : Blank.Settled (',' :: s₂) := settled_of_head rfl (by decide) s₂
  simp only [List.append_assoc]
  refine ⟨parse_extend h₁ hclear (.cons rfl rfl) hv fun a t ht hx => ?_, fun c hc => ?_⟩
  · have hskip : Blank.skip (t ++ ',' :: s₂) = ',' :: s₂ := skip_ended ht hcomma
    have hclosed : Closed (t ++ ',' :: s₂) := closed_of_comma hskip
    exact .next (hx.keep hclosed (.cons rfl rfl)) hskip hrow
  · refine parse_extend h₁ hclear (ends_symbol hc s₂) hv fun a t ht hx => ?_
    cases hrow with
    | last hy => exact .last (hx.join hc ht hy)
    | next hy hu hrest => exact .next (hx.join hc ht hy) hu hrest

/-- A slash in an argument, and an asterisk behind a comma or a combinator. -/
theorem parseSelectorList_join_slash :
    parseSelectorList ":is(/)".toList 1 = .ok [⟨⟨none, [.pseudoClass ⟨"is", some (.list [.text "/"])⟩], []⟩, []⟩] ∧
      parseSelectorList "*,d".toList 1 = .ok [⟨⟨some "*", [], []⟩, []⟩, ⟨⟨some "d", [], []⟩, []⟩] ∧
      parseSelectorList ":is(/),*,d".toList 1 =
        .ok [⟨⟨none, [.pseudoClass ⟨"is", some (.list [.text "/"])⟩], []⟩, []⟩, ⟨⟨some "*", [], []⟩, []⟩,
          ⟨⟨some "d", [], []⟩, []⟩] ∧
      parseSelectorList ":is(/)||*,d".toList 1 =
        .ok [⟨⟨none, [.pseudoClass ⟨"is", some (.list [.text "/"])⟩], []⟩, [(.column, ⟨some "*", [], []⟩)]⟩,
          ⟨⟨some "d", [], []⟩, []⟩] := by
  have ht : parseTextFragment "/".toList 0 = .ok (.list [.text "/"]) := by cbv
  have hw : Rule.ident.run "is".toList = some ([], [⟨.ident, "is".toList, [], []⟩]) := by cbv
  have hn : Identifier.decode "is".toList = .ok "is".toList := by cbv
  have h₁ : parseSelectorList ":is(/)".toList 1 =
      .ok ([] ++ [⟨⟨none, [.pseudoClass ⟨"is", some (.list [.text "/"])⟩], []⟩, []⟩]) :=
    (parse_pseudos ht hw hn (by decide)).1
  have h₂ : parseSelectorList "*,d".toList 1 = .ok [⟨⟨some "*", [], []⟩, []⟩, ⟨⟨some "d", [], []⟩, []⟩] := by cbv
  have hclear : SelectorList.Clear ([] ++ [⟨⟨none, [.pseudoClass ⟨"is", some (.list [.text "/"])⟩], []⟩, []⟩]) := by
    simp [SelectorList.Clear, ComplexSelector.compounds, CompoundSelector.allPseudos, Subclass.pseudo?,
      Parameter.Clear, Parameter.ClearAll, List.infix_cons_iff]
  obtain ⟨hcomma, hcombinator⟩ := parseSelectorList_join h₁ h₂ hclear
  exact ⟨h₁, h₂, hcomma, hcombinator .column (by decide)⟩

/-- A comment that begins in an argument of the first text may close in the second. -/
example : (parseSelectorList ":is(/*),:is(*/)".toList 1).toOption.map List.length = some 1 := by decide +kernel

end SelectorSyntax
