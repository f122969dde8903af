import SelectorSyntax.Proofs.Completion.Lists
import SelectorSyntax.Proofs.Cut.Steps

namespace SelectorSyntax.Bracket

open Relation Grammar Grammar.Expression Selector.Spelling Text CharClass

variable {e : Expression} {P : Char → Prop} {s t u x y : List Char} {ns : List Node}

/-! What stands in front of the cut begins as it does with what is behind that. -/

theorem head_cut (h : ∀ c r, y ++ u = c :: r → P c) : ∀ c r, y ++ [] = c :: r → P c := by
  intro c r hc
  rw [List.append_nil] at hc
  exact h c (r ++ u) (by rw [hc, List.cons_append])

theorem mark_cut (h : simpleSelector.Consumes (y ++ u) t) : ∀ c r, y ++ [] = c :: r → c ∈ marks := by
  obtain ⟨d, z, hd, hmem⟩ := mark_of_simple h
  refine head_cut (u := u) (P := (· ∈ marks)) fun c r hc => ?_
  cases hd.symm.trans hc
  exact hmem

theorem apart_cut (h : simpleSelector.Consumes (y ++ u) t) : Apart (y ++ []) :=
  apart_of_mem marks rfl (by decide) (mark_cut h)

theorem follows_cut (h : Follows (y ++ u)) : Follows (y ++ []) := head_cut h

theorem closed_cut (h : Closed (y ++ u)) (hs : Unsplit u (y ++ u)) : Closed (y ++ []) := by
  rw [List.append_nil]
  rcases skip_cut hs with ⟨z, hz, hyz⟩ | ⟨hy, -⟩
  · intro c r hc
    exact h c (r ++ u) (by rw [hz, ← hyz, hc, List.cons_append])
  · exact closed_of_skip hy

/-! Pseudo-classes and pseudo-elements. -/

theorem breaks_arguments : Breaks u (call .arguments) := inner_arguments.breaks (c := ')') rfl rfl rfl rfl rfl

theorem breaks_nthArguments : Breaks u (call .nthArguments) := cuts_number.inner.breaks (c := ')') rfl rfl rfl rfl rfl

theorem breaks_attribute : Breaks u (call .attributeSelector) := cuts_attribute.inner.breaks (c := ']') rfl rfl rfl rfl rfl

theorem breaks_numbered : Breaks u numbered := by
  refine .seq (unbracketed_leaf rfl rfl rfl).breaks breaks_nthArguments (by decide) (level_call rfl rfl fun _ => trivial) ?_
  intro y t ns hy h _ _
  obtain ⟨_, _, _, -, -, -, hopen⟩ := consumes_nthArguments.1 ⟨ns, h⟩
  obtain ⟨c, r, rfl⟩ := List.exists_cons_of_ne_nil hy
  obtain rfl : c = '(' := (List.cons.inj hopen).1
  exact keeps_nthName ⟨_, rfl⟩

theorem breaks_pseudoTail : Breaks u Grammar.pseudoTail := by
  intro x t ns h hstr hns hs
  rcases run_choice_eq_some.1 h with hnumbered | ⟨-, hnamed⟩
  · obtain ⟨hopen, ha⟩ := breaks_numbered hnumbered hstr hns hs
    exact ⟨hopen, ha.left⟩
  · obtain ⟨v, _, ms, hv, hrest, rfl⟩ := run_seq_eq_some.1 hnamed
    obtain ⟨hnone, rfl, rfl⟩ := run_absent_eq_some.1 hv
    obtain ⟨w, ks, ls, hname, hargs, rfl⟩ := run_seq_eq_some.1 hrest
    rw [List.nil_append] at hstr hns
    replace hstr := (straddled_append.1 hstr).resolve_left (unbracketed_leaf (r := .ident) rfl rfl rfl hname)
    have hargs : (call .arguments).run Rule.run w = some (t, ls) := by
      rcases run_maybe_eq_some.1 hargs with h | ⟨-, -, rfl⟩
      · exact h
      · exact absurd hstr not_straddled_nil
    have hin := (hstr.within (e := call .arguments) (by decide) hargs).2
    obtain ⟨y, rfl, hy⟩ := exists_append_of_lt (run_suffix Rule.lawful_run (call .ident) hname) hin
    obtain ⟨ps, hb⟩ := level_call (r := .ident) rfl rfl (fun _ => trivial) ⟨ks, hname⟩
    obtain ⟨⟨cs, hcs, hopen⟩, ha⟩ := breaks_arguments hargs hstr (uncut_append.1 hns).2 (hs.visits hb.visits)
    have hident : (call .ident).Consumes x y := keeps_cut keeps_ident_cut ⟨ks, hname⟩
    -- The name takes a number no more in front of the cut than it does with what is behind that.
    have hnone : Rule.nthName.run x = none := by
      have h := run_nthName_none (k := []) ⟨ks, hname⟩ (by simpa using hident) (Or.inl hy) hnone
      rwa [List.append_nil] at h
    refine ⟨⟨cs, hcs, hopen.after hb⟩, .right (run_seq_eq_none.2 (Or.inl hnone)) ?_⟩
    exact .second (consumes_absent.2 ⟨hnone, rfl⟩) (.second hident ha.maybe)

theorem breaks_pseudoElement : Breaks u (call .pseudoElement) :=
  .call rfl rfl rfl (.seq (unbracketed_callFree rfl).breaks breaks_pseudoTail (by decide) (level_flat (.literal (by decide)))
    fun _ _ _ _ _ _ _ => keeps_literal _)

theorem breaks_pseudoClass : Breaks u (call .pseudoClass) :=
  .call rfl rfl rfl (.seq (unbracketed_callFree rfl).breaks breaks_pseudoTail (by decide) (level_flat (.exactly (by decide)))
    fun _ _ _ _ _ _ _ => keeps_char _)

/-! Compounds. -/

theorem asks_simple (he : e ∈ subclasses) (hx : x ≠ []) (h : e.Consumes (x ++ u) t) (ha : e.Asks x) :
    simpleSelector.Asks x := by
  obtain ⟨c, x, rfl⟩ := List.exists_cons_of_ne_nil hx
  obtain ⟨es, fs, hsub, hnone⟩ := earlier_of_subclass he h
  rw [show simpleSelector = choices subclasses from rfl, hsub]
  exact .choices es (hnone x (List.prefix_append x u)) ha

theorem breaks_subclass (he : e ∈ subclasses) : Breaks u e := by
  have hmarked (c : Char) : Unbracketed (seq (exactly c) (call .ident)) :=
    .seq (unbracketed_callFree rfl) (unbracketed_leaf rfl rfl rfl)
  simp only [subclasses, List.mem_cons, List.not_mem_nil, or_false] at he
  rcases he with rfl | rfl | rfl | rfl | rfl
  · exact (Unbracketed.call (r := .idSelector) rfl rfl (hmarked '#')).breaks
  · exact (Unbracketed.call (r := .classSelector) rfl rfl (hmarked '.')).breaks
  · exact breaks_attribute
  · exact breaks_pseudoElement
  · exact breaks_pseudoClass

theorem breaks_simple : Breaks u simpleSelector := by
  intro x t ns h hstr hns hs
  obtain ⟨y, hy, hne⟩ := exists_append_of_lt List.suffix_rfl (hstr.within (by decide) h).2
  obtain rfl := eq_of_append_eq hy
  obtain ⟨e, he, h⟩ := run_simple_eq_some.1 h
  obtain ⟨hopen, ha⟩ := breaks_subclass he h hstr hns hs
  exact ⟨hopen, asks_simple he hne ⟨ns, h⟩ ha⟩

theorem level_simple : Level simpleSelector := by
  intro s t h
  obtain ⟨e, he, h⟩ := consumes_simple.1 h
  have hlevel : Level e := by
    simp only [subclasses, List.mem_cons, List.not_mem_nil, or_false] at he
    rcases he with rfl | rfl | rfl | rfl | rfl <;> exact level_call rfl rfl fun _ => trivial
  exact hlevel h

theorem breaks_simples : Breaks u (star simpleSelector) :=
  .star breaks_simple rfl (by decide) level_simple fun _ _ h _ => keeps_simple (apart_cut h) Detached.nil.ends

theorem breaks_compound : Breaks u (call .compoundSelector) := by
  have htype : Unbracketed (call .typeSelector) :=
    .call rfl rfl (.choice (unbracketed_leaf rfl rfl rfl) (unbracketed_leaf rfl rfl rfl))
  have hnext {y t : List Char} {ns : List Node} (h : (star simpleSelector).run Rule.run (y ++ u) = some (t, ns))
      (hstr : Straddled u ns) : Apart (y ++ []) := by
    obtain ⟨v, hv⟩ := exists_round rfl h hstr
    exact apart_cut hv
  refine .call rfl rfl rfl (.choice ?_ ?_ (by decide) fun x t hx h => ?_)
  · exact .seq htype.breaks breaks_simples (by decide) (level_call rfl rfl fun _ => trivial) fun _ _ _ _ h hstr _ =>
      keeps_type (hnext h hstr).stops Detached.nil.ends
  · exact .seq breaks_simple breaks_simples (by decide) level_simple fun _ _ _ _ h hstr _ =>
      keeps_simple (hnext h hstr) Detached.nil.ends
  · obtain ⟨v, hv, -⟩ := consumes_seq.1 h
    obtain ⟨c, r, rfl⟩ := List.exists_cons_of_ne_nil hx
    exact run_seq_eq_none.2 (Or.inl (run_type_mark (mark_cut hv c r (List.append_nil _)) r))

/-! Lists. -/

theorem breaks_link : Breaks u link := by
  have hcombinator : Unbracketed (call .combinator) :=
    .call rfl rfl (.choice (.seq (unbracketed_callFree rfl) (.seq (unbracketed_leaf rfl rfl rfl) (unbracketed_callFree rfl)))
      (unbracketed_leaf rfl rfl rfl))
  refine .seq hcombinator.breaks breaks_compound (by decide) (level_call rfl rfl fun _ => trivial) fun y t ns hy h _ _ => ?_
  have hcompound : (call .compoundSelector).Consumes (y ++ u) t := ⟨ns, h⟩
  refine keeps_combinator ?_ ?_
  · rw [List.append_nil]
    exact settled_cut (settled_of_consumes rfl (by decide) hcompound)
  · rw [List.append_nil]
    cases hsign : Rule.combinatorSymbol.run y with
    | none => rfl
    | some z =>
        obtain ⟨w, hw, rfl⟩ := consumes_symbol.1 ⟨z.2, hsign⟩
        have hsign := consumes_symbol.2 ⟨w, hw, List.append_assoc w.toList z.1 u⟩
        exact absurd hsign (not_consumes (run_symbol_none hcompound))

theorem breaks_complex : Breaks u (call .complexSelector) := by
  have hlinks : Breaks u (star link) :=
    .star breaks_link rfl (by decide) (.seq (level_call rfl rfl fun _ => trivial) (level_call rfl rfl fun _ => trivial))
      fun _ _ h _ => keeps_link (follows_cut (follows_of_link h)) Detached.nil.ends
  refine .call rfl rfl rfl (.seq breaks_compound hlinks (by decide) (level_call rfl rfl fun _ => trivial) ?_)
  intro y t ns _ h hstr _
  obtain ⟨v, hv⟩ := exists_round rfl h hstr
  exact keeps_compound (follows_cut (follows_of_link hv)) Detached.nil.ends

theorem breaks_alternative : Breaks u alternative :=
  .blanks (.seq (unbracketed_leaf rfl rfl rfl).breaks (.blanks breaks_complex (by decide) rfl (by decide)) (by decide)
    (level_call rfl rfl fun _ => trivial) fun _ _ _ _ _ _ _ => keeps_call (keeps_char _)) (by decide) rfl (by decide)

theorem level_alternative : Level alternative := by
  have hblanks : Level (maybe ws) := level_flat flat_ws.maybe
  exact hblanks.seq (.seq (level_call rfl rfl fun _ => trivial) (hblanks.seq (level_call rfl rfl fun _ => trivial)))

theorem breaks_list : Breaks u (call .selectorList) := by
  have halternatives : Breaks u (star alternative) :=
    .star breaks_alternative rfl (by decide) level_alternative fun _ _ h hs =>
      keeps_alternative (closed_cut (closed_of_alternative h) hs) Detached.nil.ends
  refine .call rfl rfl rfl (.seq breaks_complex halternatives (by decide) (level_call rfl rfl fun _ => trivial) ?_)
  intro y t ns _ h hstr hs
  obtain ⟨v, hv⟩ := exists_round rfl h hstr
  exact keeps_complex (closed_cut (closed_of_alternative hv) hs) Detached.nil.ends

/-- A list of selectors that is cut between brackets asks for something at the cut. -/
theorem breaks_selectors : Breaks u (call .selectors) := by
  have hend : Unbracketed (seq (maybe ws) (call .endOfInput)) :=
    .seq (unbracketed_callFree rfl) (unbracketed_leaf rfl rfl rfl)
  refine .call rfl rfl rfl (.blanks ?_ (by decide) rfl (by decide))
  exact .seq breaks_list hend.breaks (by decide) (level_call rfl rfl fun _ => trivial)
    fun _ _ _ _ h hstr _ => absurd hstr (hend h)

end SelectorSyntax.Bracket
