import SelectorSyntax.Proofs.Bracket.Nesting
import SelectorSyntax.Proofs.Spelling.Rows
import SelectorSyntax.Proofs.Spelling.WrittenCompound

namespace SelectorSyntax.Selector.Spelling

open Grammar Expression Text OfNodes

variable {b k s u w : List Char} {x : Combinator}

/-! Combinators. -/

/-- A written compound begins here. -/
def Opens (k : List Char) : Prop := ∃ c r, k = c :: r ∧ c ∈ beginnings

theorem Opens.append (h : Opens w) (k : List Char) : Opens (w ++ k) := by
  obtain ⟨c, r, rfl, hc⟩ := h
  exact ⟨c, r ++ k, rfl, hc⟩

theorem Opens.settled (h : Opens k) : Blank.Settled k := by
  obtain ⟨c, r, rfl, hc⟩ := h
  exact settled_of_mem beginnings rfl hc r

theorem Opens.run_symbol (h : Opens k) : Rule.combinatorSymbol.run k = none := by
  obtain ⟨c, r, rfl, hc⟩ := h
  have hall : beginnings.all (fun c => !Rule.combinatorSymbol.begins c) = true := by decide
  exact run_begins_none (r := .combinatorSymbol) rfl (by simpa using List.all_eq_true.1 hall c hc) r

theorem follows_blanks (hb : Blanks b) (hk : Follows k) : Follows (b ++ k) := by
  intro c r hc
  cases b with
  | nil => exact hk c r hc
  | cons d b =>
      cases hc
      rcases blanks_head hb with h | rfl
      · exact List.mem_append_left _ (mem_whitespace h)
      · decide

theorem symbol_head (hx : x ∈ Combinator.explicit) (k : List Char) :
    ∃ c r, x.symbol.toList ++ k = c :: r ∧ c ∈ ['>', '+', '~', '|'] := by
  simp only [Combinator.explicit, List.mem_cons, List.not_mem_nil, or_false] at hx
  rcases hx with rfl | rfl | rfl | rfl <;> exact ⟨_, _, rfl, by decide⟩

theorem joins_follows (h : Joins x w) (k : List Char) : Follows (w ++ k) := by
  cases h with
  | descendant hb hne =>
      obtain ⟨c, b, rfl⟩ := List.exists_cons_of_ne_nil hne
      intro d r hd
      cases hd
      rcases blanks_head hb with h | rfl
      · exact List.mem_append_left _ (mem_whitespace h)
      · decide
  | @sign _ b₁ b₂ hx hb₁ _ =>
      rw [List.append_assoc]
      refine follows_blanks hb₁ fun c r hc => ?_
      rw [List.append_assoc] at hc
      obtain ⟨d, u, hd, hmem⟩ := symbol_head hx (b₂ ++ k)
      rw [hd] at hc
      cases hc
      exact (by decide : ['>', '+', '~', '|'] ⊆ followers) hmem

theorem run_symbol (hx : x ∈ Combinator.explicit) (k : List Char) :
    Rule.combinatorSymbol.run (x.symbol.toList ++ k) =
    some (k, [⟨.combinatorSymbol, x.symbol.toList ++ k, k, []⟩]) := by
  refine (Rule.run_node rfl).2 ⟨[], ?_, rfl⟩
  simp only [Combinator.explicit, List.mem_cons, List.not_mem_nil, or_false] at hx
  rcases hx with rfl | rfl | rfl | rfl <;> rfl

theorem writes_combinator (h : Joins x w) (hk : Blank.Settled k) (hsymbol : Rule.combinatorSymbol.run k = none) :
    Writes .combinator combinator Flat x w k := by
  cases h with
  | descendant hb hne =>
      have hdescendant : Rule.descendant.run (w ++ k) = some (k, [⟨.descendant, w ++ k, k, []⟩]) :=
        (Rule.run_node rfl).2 ⟨[], ws_of_blanks hb hne hk, rfl⟩
      have hsign : (seqs [maybe ws, call .combinatorSymbol, maybe ws]).run Rule.run (w ++ k) = none :=
        run_seq_eq_none.2 (Or.inr ⟨k, [], maybe_ws_of_blanks hb hk, run_seq_eq_none.2 (Or.inl hsymbol)⟩)
      have hrun : (body .combinator).run Rule.run (w ++ k) = some (k, [⟨.descendant, w ++ k, k, []⟩]) :=
        run_choice_eq_some.2 (Or.inr ⟨hsign, hdescendant⟩)
      exact ⟨_, (Rule.run_node rfl).2 ⟨_, hrun, rfl⟩, rfl, rfl, fun d _ => Nat.zero_le d⟩
  | @sign _ b₁ b₂ hx hb₁ hb₂ =>
      have hsettled : Blank.Settled (x.symbol.toList ++ (b₂ ++ k)) := by
        obtain ⟨c, r, hc, hmem⟩ := symbol_head hx (b₂ ++ k)
        rw [hc]
        exact settled_of_mem _ rfl hmem r
      have happend : b₁ ++ (x.symbol.toList ++ b₂) ++ k = b₁ ++ (x.symbol.toList ++ (b₂ ++ k)) := by simp
      have hrun : (body .combinator).run Rule.run (b₁ ++ (x.symbol.toList ++ (b₂ ++ k))) =
          some (k, [⟨.combinatorSymbol, x.symbol.toList ++ (b₂ ++ k), b₂ ++ k, []⟩]) := by
        refine run_choice_eq_some.2 (Or.inl ?_)
        refine run_seq_eq_some.2 ⟨_, [], _, maybe_ws_of_blanks hb₁ hsettled, ?_, rfl⟩
        exact run_seq_eq_some.2 ⟨_, _, [], run_symbol hx _, maybe_ws_of_blanks hb₂ hk, rfl⟩
      have htext : (⟨.combinatorSymbol, x.symbol.toList ++ (b₂ ++ k), b₂ ++ k, []⟩ : Node).text = x.symbol.toList :=
        Place.between_append _ _
      rw [Writes, happend]
      refine ⟨_, (Rule.run_node rfl).2 ⟨_, hrun, rfl⟩, rfl, ?_, fun d _ => Nat.zero_le d⟩
      rw [combinator]
      simp only [Rule.isToken, Bool.false_eq_true, if_false, List.head?_cons]
      rw [htext, String.ofList_toList]
      simp only [Combinator.explicit, List.mem_cons, List.not_mem_nil, or_false] at hx
      rcases hx with rfl | rfl | rfl | rfl <;> rfl

/-! Complex selectors. -/

def enders : List Char := [',', ')', ']']

/-- Nothing of a complex selector is left here: blanks and then a comma, a closing bracket or the end. -/
def Closed (k : List Char) : Prop := ∀ c r, Blank.skip k = c :: r → c ∈ enders

theorem closed_of_skip (hk : Blank.skip k = []) : Closed k := by
  intro c r hc
  cases hk.symm.trans hc

theorem closed_of_ender {c : Char} (hc : c ∈ enders) (hk : Blank.skip k = c :: s) : Closed k := by
  intro d r hd
  cases hk.symm.trans hd
  exact hc

theorem closed_of_comma (hk : Blank.skip k = ',' :: s) : Closed k := closed_of_ender (by decide) hk

theorem Closed.follows (hk : Closed k) : Follows k := by
  rintro c r rfl
  by_cases hw : CharClass.isWhitespace c = true
  · exact List.mem_append_left _ (mem_whitespace hw)
  · by_cases hs : c = '/'
    · rw [hs]
      decide
    · have hsettled := settled_of_head (by simpa using hw) hs r
      exact (by decide : enders ⊆ followers) (hk c r hsettled.skip_eq)

theorem Closed.run_of_begins (hk : Closed k) {e : Expression} (he : e.takes = true)
    (hc : enders.all (fun c => !e.begins c (Rule.begins c)) = true) : e.run Rule.run (Blank.skip k) = none := by
  cases hs : Blank.skip k with
  | nil => exact run_nil_eq_none he
  | cons c r => exact run_eq_none_of_begins r he (by simpa using List.all_eq_true.1 hc c (hk c r hs))

theorem Closed.run_link (hk : Closed k) : link.run Rule.run k = none := by
  cases hrun : Rule.combinator.run k with
  | none => exact run_seq_eq_none.2 (Or.inl hrun)
  | some x =>
      obtain ⟨v, ms⟩ := x
      have hv : v = Blank.skip k := by
        obtain ⟨ms, hm, -⟩ := (Rule.run_node rfl).1 hrun
        rcases run_choice_eq_some.1 hm with hm | ⟨-, hm⟩
        · obtain ⟨s₁, ms₁, ks₁, h₁, g₁, -⟩ := run_seq_eq_some.1 hm
          obtain ⟨s₂, ms₂, ks₂, h₂, -, -⟩ := run_seq_eq_some.1 g₁
          rw [Blank.run_maybe_ws] at h₁
          cases h₁
          rw [hk.run_of_begins (e := call .combinatorSymbol) rfl rfl] at h₂
          cases h₂
        · obtain ⟨ms', hm, -⟩ := (Rule.run_node (r := .descendant) rfl).1 hm
          exact (Blank.run_ws_eq_some.1 hm).2.1
      refine run_seq_eq_none.2 (Or.inr ⟨v, ms, hrun, ?_⟩)
      rw [hv]
      exact hk.run_of_begins rfl rfl

theorem iterates_links {xs : List (Combinator × CompoundSelector)} (hxs : ∀ p ∈ xs, p.2.Writable)
    (h : Concat encoded.Link xs u) (hk : Closed k) : ∃ ns, Iterates (link.run Rule.run) (u ++ k) k ns ∧
      chain ns = .ok xs ∧ (∀ d, (∀ p ∈ xs, p.2.BracketsWithin d) → Node.nestingOfAll ns ≤ d) ∧
      Follows (u ++ k) := by
  induction h with
  | nil => exact ⟨[], .stop hk.run_link, rfl, fun d _ => Nat.zero_le d, hk.follows⟩
  | @cons p ps v u hp _ ih =>
      obtain ⟨ns, hns, hchain, hd, hfollows⟩ := ih fun q hq => hxs q (List.mem_cons_of_mem p hq)
      have hc := hxs p List.mem_cons_self
      cases hp with
      | @mk x c w v hx hv =>
          obtain ⟨n, hn, -, hcompound, hnd⟩ := writes_compound hc hv hfollows
          have hopens : Opens (v ++ (u ++ k)) := Opens.append (compound_head hc hv) (u ++ k)
          obtain ⟨m, hm, -, hcombinator, hmd⟩ := writes_combinator hx hopens.settled hopens.run_symbol
          have happend : w ++ v ++ u ++ k = w ++ (v ++ (u ++ k)) := by simp
          rw [happend]
          have hlink : link.run Rule.run (w ++ (v ++ (u ++ k))) = some (u ++ k, [m, n]) :=
            run_seq_eq_some.2 ⟨_, [m], [n], hm, hn, rfl⟩
          refine ⟨[m, n] ++ ns, .next hlink hns, ?_, fun d hwithin => ?_, joins_follows hx _⟩
          · exact bind_eq_ok.2 ⟨x, hcombinator, bind_eq_ok.2 ⟨c, hcompound, bind_eq_ok.2 ⟨ps, hchain, rfl⟩⟩⟩
          · have hm0 := hmd 0 trivial
            have hn := hnd d (hwithin _ List.mem_cons_self)
            have hns := hd d fun q hq => hwithin q (List.mem_cons_of_mem _ hq)
            simp only [List.cons_append, List.nil_append, Node.nestingOfAll_cons]
            omega

theorem writes_complex {x : ComplexSelector} (hx : ∀ c ∈ x.compounds, c.Writable)
    (hw : encoded.Complex x w)
    (hk : Closed k) :
    Writes .complexSelector complex (fun d => ∀ c ∈ x.compounds, c.BracketsWithin d) x w k ∧ Opens w := by
  have htail : ∀ p ∈ x.tail, p.2 ∈ x.compounds := fun p hp => List.mem_cons_of_mem _ (List.mem_map_of_mem hp)
  cases hw with
  | @mk w u hw hu =>
      obtain ⟨ns, hns, hchain, hds, hfollows⟩ := iterates_links (fun p hp => hx _ (htail p hp)) hu hk
      have hhead := hx x.head List.mem_cons_self
      obtain ⟨n, hn, -, hcompound, hd⟩ := writes_compound hhead hw hfollows
      have hopens : Opens (w ++ u) := Opens.append (compound_head hhead hw) u
      have hrun : Rule.complexSelector.run (w ++ u ++ k) = some (k, [⟨.complexSelector, w ++ u ++ k, k, n :: ns⟩]) := by
        rw [List.append_assoc]
        exact run_complex_eq_some.2 ⟨_, n, ns, hn, hns, rfl⟩
      refine ⟨⟨_, hrun, rfl, ?_, fun d hwithin => ?_⟩, hopens⟩
      · exact bind_eq_ok.2 ⟨x.head, hcompound, bind_eq_ok.2 ⟨x.tail, hchain, rfl⟩⟩
      · have hn := hd d (hwithin _ List.mem_cons_self)
        have hns := hds d fun p hp => hwithin _ (htail p hp)
        rw [Node.nesting_plain rfl]
        simp only [Node.nestingOfAll_cons]
        omega

/-! Lists of selectors. -/

theorem row_of_alternatives {list : SelectorList} (hl : ∀ x ∈ list, ∀ c ∈ x.compounds, c.Writable)
    (h : encoded.Alternatives list w) (hk : Blank.skip k = []) {all : SelectorList} (hall : list ⊆ all) :
    Row (fun n => ∀ d, BracketsWithin d all → Shallow d n) (w ++ k) k list ∧ Opens w := by
  induction h with
  | @last x w hw =>
      obtain ⟨⟨n, hn, -, hx, hd⟩, hopens⟩ := writes_complex (hl x List.mem_cons_self) hw (closed_of_skip hk)
      exact ⟨.last ⟨n, hn, hx, fun d h => hd d (h x (hall List.mem_cons_self))⟩, hopens⟩
  | @next x xs w b₁ b₂ u hw hb₁ hb₂ _ ih =>
      obtain ⟨hrow, hopens⟩ := ih (fun y hy => hl y (List.mem_cons_of_mem x hy))
        fun y hy => hall (List.mem_cons_of_mem x hy)
      have hcomma : Blank.skip (b₁ ++ ',' :: (b₂ ++ (u ++ k))) = ',' :: (b₂ ++ (u ++ k)) := by
        rw [skip_blanks hb₁, (settled_of_head rfl (by decide) _).skip_eq]
      obtain ⟨⟨n, hn, -, hx, hd⟩, hopens'⟩ := writes_complex (hl x List.mem_cons_self) hw (closed_of_comma hcomma)
      have happend : w ++ (b₁ ++ (',' :: (b₂ ++ u))) ++ k = w ++ (b₁ ++ ',' :: (b₂ ++ (u ++ k))) := by simp
      rw [happend]
      refine ⟨.next ⟨n, hn, hx, fun d h => hd d (h x (hall List.mem_cons_self))⟩ hcomma ?_, hopens'.append _⟩
      rwa [skip_blanks hb₂, (hopens.append k).settled.skip_eq]

theorem writes_selectors {list : SelectorList} (hl : WritableList list) (h : encoded.Spells list w) :
    ∃ root, Rule.selectors.run w = some ([], [root]) ∧ OfNodes.selectors root = .ok list ∧
      ∀ d, BracketsWithin d list → root.nesting ≤ d := by
  obtain ⟨b₁, u, b₂, hb₁, hu, hb₂, rfl⟩ := h
  have hend : Blank.skip b₂ = [] := by
    have hskip := skip_blanks hb₂ []
    rwa [List.append_nil, Blank.skip_nil] at hskip
  obtain ⟨hrow, hopens⟩ := row_of_alternatives hl.2 hu hend (List.Subset.refl list)
  rw [← (hopens.append b₂).settled.skip_eq, ← skip_blanks hb₁] at hrow
  obtain ⟨root, hrun, hread, hd⟩ := run_of_row hrow hend
  exact ⟨root, hrun, hread, fun d h => hd d fun n hn => hn d h⟩

/-! Everything that can be written has a written form. -/

theorem exists_concat {α : Type} {R : α → List Char → Prop} {xs : List α}
    (h : ∀ x ∈ xs, ∃ w, R x w) : ∃ w, Concat R xs w := by
  induction xs with
  | nil => exact ⟨[], .nil⟩
  | cons x xs ih =>
      obtain ⟨w, hw⟩ := h x List.mem_cons_self
      obtain ⟨u, hu⟩ := ih fun y hy => h y (List.mem_cons_of_mem x hy)
      exact ⟨w ++ u, .cons hw hu⟩

theorem exists_argument {name : String} {v : Parameter} (hv : WritableParameter name v) :
    ∃ w, encoded.argument name v w := by
  rw [WritableParameter] at hv
  split at hv
  next hname =>
    obtain ⟨t, rfl, -⟩ := hv
    refine ⟨_, t.toList, rfl, ?_⟩
    rw [if_pos hname, String.ofList_toList]
  next hname =>
    obtain ⟨ps, t, d, -, ht, hparse⟩ := hv
    refine ⟨_, t, rfl, ?_⟩
    rw [if_neg hname]
    exact ⟨ht, d, hparse⟩

theorem exists_pseudo {p : Selector.Pseudo} (hp : p.Writable) : ∃ w, encoded.Pseudo p w := by
  obtain ⟨name, v⟩ := p
  cases v with
  | none => exact ⟨_, .bare rfl⟩
  | some v =>
      obtain ⟨w, hw⟩ := exists_argument (hp.parameter v rfl)
      exact ⟨_, .function rfl hw⟩

theorem exists_value (v : AttributeValue) : ∃ w, encoded.Value v w := by
  obtain ⟨q, v⟩ := v
  cases q with
  | true => exact ⟨_, .quoted ⟨'"', rfl, rfl⟩⟩
  | false => exact ⟨_, .identifier rfl⟩

theorem exists_match (m : Option AttributeMatch) : ∃ w, encoded.Match m w := by
  rcases m with _ | ⟨m, v, f⟩
  · exact ⟨_, .none⟩
  · obtain ⟨w, hw⟩ := exists_value v
    cases f with
    | none => exact ⟨_, .plain .nil .nil hw⟩
    | some f =>
        have hflag : Flag f f.flag.toList := by cases f <;> rfl
        exact ⟨_, .flagged .nil .nil hw (.whitespace rfl .nil) (List.cons_ne_nil ' ' []) hflag⟩

theorem exists_subclass {x : Selector.Subclass} (hx : x.Writable) : ∃ w, encoded.Subclass x w := by
  rcases x with v | v | a | p
  · exact ⟨_, .id rfl⟩
  · exact ⟨_, .className rfl⟩
  · obtain ⟨w, hw⟩ := exists_match a.valueMatch
    exact ⟨_, .bracketed (.mk .nil rfl hw .nil)⟩
  · obtain ⟨w, hw⟩ := exists_pseudo hx
    exact ⟨_, .pseudoClass hw⟩

theorem exists_compound {c : CompoundSelector} (hc : c.Writable) : ∃ w, encoded.Compound c w := by
  obtain ⟨t, ht⟩ : ∃ t, encoded.TypeName c.type t := by
    cases c.type with
    | none => exact ⟨_, .none⟩
    | some v => exact ⟨_, .element rfl⟩
  obtain ⟨s, hs⟩ := exists_concat fun x hx => exists_subclass (hc.subclasses x hx)
  obtain ⟨e, he⟩ : ∃ e, encoded.Element c.pseudos e := by
    rcases hc.pseudos with h | ⟨p, h, hp⟩
    · rw [h]
      exact ⟨_, .none⟩
    · obtain ⟨w, hw⟩ := exists_pseudo hp
      rw [h]
      exact ⟨_, .element hw⟩
  exact ⟨_, .mk ht hs he⟩

theorem exists_joins (x : Combinator) : ∃ w, Joins x w := by
  cases x with
  | descendant => exact ⟨_, .descendant (.whitespace (c := ' ') rfl .nil) (List.cons_ne_nil _ _)⟩
  | child | nextSibling | subsequentSibling | column => exact ⟨_, .sign (by simp [Combinator.explicit]) .nil .nil⟩

theorem exists_complex {x : ComplexSelector} (hx : ∀ c ∈ x.compounds, c.Writable) :
    ∃ w, encoded.Complex x w := by
  obtain ⟨w, hw⟩ := exists_compound (hx x.head List.mem_cons_self)
  obtain ⟨u, hu⟩ : ∃ u, Concat encoded.Link x.tail u := exists_concat fun p hp => by
    obtain ⟨v, hv⟩ := exists_joins p.1
    obtain ⟨w, hw⟩ := exists_compound (hx p.2 (List.mem_cons_of_mem _ (List.mem_map_of_mem hp)))
    exact ⟨v ++ w, .mk hv hw⟩
  exact ⟨w ++ u, .mk hw hu⟩

theorem exists_alternatives {list : SelectorList} (hne : list ≠ [])
    (hl : ∀ x ∈ list, ∀ c ∈ x.compounds, c.Writable) :
    ∃ w, encoded.Alternatives list w := by
  induction list with
  | nil => exact absurd rfl hne
  | cons x xs ih =>
      obtain ⟨w, hw⟩ := exists_complex (hl x List.mem_cons_self)
      cases xs with
      | nil => exact ⟨w, .last hw⟩
      | cons y ys =>
          obtain ⟨u, hu⟩ := ih (List.cons_ne_nil y ys) fun z hz => hl z (List.mem_cons_of_mem x hz)
          exact ⟨_, .next hw .nil .nil hu⟩

theorem exists_spells {list : SelectorList} (hl : WritableList list) : ∃ w, encoded.Spells list w := by
  obtain ⟨w, hw⟩ := exists_alternatives hl.1 hl.2
  exact ⟨_, [], w, [], .nil, hw, .nil, rfl⟩

end SelectorSyntax.Selector.Spelling

namespace SelectorSyntax

open Grammar Selector

variable {input : List Char} {d : Nat}

theorem scan_of_nesting {root : Node} (hr : Rule.selectors.run input = some ([], [root]))
    (hd : root.nesting ≤ d) : ∃ report, Bracket.scan input d = .ok report :=
  Bracket.exists_scan (r := .selectors) trivial rfl hr hd

theorem parseSelectorList_of_run {root : Node} {t : List Char} {report : Bracket.Report}
    {list : SelectorList}
    (hs : Bracket.scan input d = .ok report) (hr : Rule.selectors.run input = some (t, [root]))
    (ho : OfNodes.selectors root = .ok list) : parseSelectorList input d = .ok list := by
  rw [parseSelectorList, matchRoot_of_run hs hr]
  exact congrArg (Except.mapError _) ho

/-- What is written by codes is read back, if the scan of its brackets lets it be read at all, and it does
where no more brackets lie inside one another than allowed. -/
theorem parseSelectorList_encoded {list : SelectorList} (h : WritableList list) :
    (∃ text, Spelling.encoded.Spells list text) ∧ ∀ text, Spelling.encoded.Spells list text → ∀ d,
      (parseSelectorList text d = .ok list ↔ ∃ report, Bracket.scan text d = .ok report) ∧
      (BracketsWithin d list → parseSelectorList text d = .ok list) := by
  refine ⟨Spelling.exists_spells h, fun text ht d => ?_⟩
  obtain ⟨root, hrun, hread, hd⟩ := Spelling.writes_selectors h ht
  refine ⟨⟨fun hparse => ?_, fun ⟨report, hs⟩ => ?_⟩, fun hwithin => ?_⟩
  · obtain ⟨root', hm, -⟩ := parseSelectorList_eq_ok hparse
    exact (matchRoot_eq_ok hm).1
  · exact parseSelectorList_of_run hs hrun hread
  · obtain ⟨report, hs⟩ := scan_of_nesting hrun (hd d hwithin)
    exact parseSelectorList_of_run hs hrun hread

/-- A group in the argument of an escaped name. -/
theorem parseSelectorList_encoded_group :
    parseSelectorList "\\61 :\\69 \\73 ([b])".toList 2 =
      .ok [⟨⟨some "a", [.pseudoClass ⟨"is", some (.list [.list [.text "[", .text "b", .text "]"]])⟩], []⟩, []⟩] := by
  have hparse : parseTextFragment "[b]".toList 1 = .ok (.list [.list [.text "[", .text "b", .text "]"]]) := by cbv
  have huncommented : ¬ ['/', '*'] <:+: "[b]".toList := by decide
  have hparameter : WritableParameter "is" (.list [.list [.text "[", .text "b", .text "]"]]) := by
    rw [WritableParameter, if_neg (by decide)]
    exact ⟨_, _, 1, rfl, huncommented, hparse⟩
  have hname : WritableName "a" ∧ WritableName "is" :=
    ⟨⟨by decide, (by decide : '\x00' ∉ "a".toList)⟩, by decide, (by decide : '\x00' ∉ "is".toList)⟩
  have h : WritableList
      [⟨⟨some "a", [.pseudoClass ⟨"is", some (.list [.list [.text "[", .text "b", .text "]"]])⟩], []⟩, []⟩] := by
    refine ⟨List.cons_ne_nil _ _, ?_⟩
    simp only [List.mem_singleton, forall_eq, ComplexSelector.compounds, List.map_nil]
    refine ⟨Or.inl (by simp), ?_, ?_, Or.inl rfl⟩
    · rintro t ⟨⟩
      exact hname.1
    · simp only [List.mem_singleton, forall_eq]
      refine ⟨hname.2, ?_⟩
      rintro v ⟨⟩
      exact hparameter
  have hargument :
      Spelling.encoded.argument "is" (.list [.list [.text "[", .text "b", .text "]"]]) "([b])".toList := by
    refine ⟨"[b]".toList, rfl, ?_⟩
    rw [if_neg (by decide)]
    exact ⟨huncommented, 1, hparse⟩
  have hspells : Spelling.encoded.Spells
      [⟨⟨some "a", [.pseudoClass ⟨"is", some (.list [.list [.text "[", .text "b", .text "]"]])⟩], []⟩, []⟩]
      "\\61 :\\69 \\73 ([b])".toList := by
    have hpseudo : Spelling.encoded.Pseudo ⟨"is", some (.list [.list [.text "[", .text "b", .text "]"]])⟩ _ :=
      .function rfl hargument
    refine ⟨[], _, [], .nil, .last (.mk (.mk (.element rfl) (.cons (.pseudoClass hpseudo) .nil) .none) .nil), .nil, ?_⟩
    cbv
  refine ((parseSelectorList_encoded h).2 _ hspells 2).2 ?_
  simp only [BracketsWithin, List.mem_singleton, forall_eq, ComplexSelector.compounds, List.map_nil]
  refine ⟨by simp, fun p hp v hv => ?_⟩
  obtain rfl : p = ⟨"is", some (.list [.list [.text "[", .text "b", .text "]"]])⟩ := List.mem_singleton.1 hp
  cases hv
  simp [Parameter.depth, Parameter.depthOfAll]

end SelectorSyntax
