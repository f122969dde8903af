import SelectorSyntax.Proofs.Completion.Compounds
import SelectorSyntax.Proofs.Spelling.Completeness

namespace SelectorSyntax.Selector.Spelling

open Grammar Expression Text CharClass SelectorSyntax.Bracket

variable {k s t u v w : List Char}

/-! Combinators. -/

def symbols : List String := ["||", ">", "+", "~"]

theorem consumes_symbol : (call .combinatorSymbol).Consumes s t ↔ ∃ w ∈ symbols, s = w.toList ++ t :=
  consumes_call.trans (consumes_literals symbols (by decide))

theorem keeps_symbol : (call .combinatorSymbol).Keeps u k v := keeps_call (keeps_literals symbols (by decide))

theorem run_symbol_none (h : (call .compoundSelector).Consumes s t) : Rule.combinatorSymbol.run s = none := by
  cases hrun : Rule.combinatorSymbol.run s with
  | none => rfl
  | some x =>
      obtain ⟨w, hw, rfl⟩ := consumes_symbol.1 ⟨x.2, hrun⟩
      refine absurd h (not_consumes ?_)
      simp only [symbols, List.mem_cons, List.not_mem_nil, or_false] at hw
      rcases hw with rfl | rfl | rfl | rfl <;> exact run_begins_none rfl rfl _

/-- A combinator ends in front of what is neither a blank nor a sign. -/
theorem keeps_combinator (hs : Blank.Settled (v ++ k)) (hsymbol : Rule.combinatorSymbol.run (v ++ k) = none) :
    (call .combinator).Keeps u k v := by
  have hsign : (seqs [maybe ws, call .combinatorSymbol, maybe ws]).Keeps u k v :=
    keeps_seq_blanks rfl (by decide) (.seq (fun _ _ => keeps_symbol) (keeps_blanks hs))
  refine keeps_call (.choice hsign (keeps_call (keeps_space hs)) fun s hspace => ?_)
  -- Where only blanks are taken, no sign stands behind them.
  obtain ⟨ns, hspace⟩ := consumes_call.1 hspace
  obtain ⟨-, hskip, -⟩ := Blank.run_ws_eq_some.1 hspace
  refine run_seq_eq_none.2 (Or.inr ⟨v ++ k, [], ?_, run_seq_eq_none.2 (Or.inl hsymbol)⟩)
  rw [Blank.run_maybe_ws, hskip]

theorem keeps_combinator_before (h : (call .compoundSelector).Consumes (v ++ k) t) : (call .combinator).Keeps u k v :=
  keeps_combinator (settled_of_consumes rfl (by decide) h) (run_symbol_none h)

theorem completes_combinator (h : (call .combinator).Reaches (w ++ u) u) : (call .combinator).Completes w := by
  have hnil : (call .combinator).Completes [] := ⟨['>'], detached_of rfl, _, rfl⟩
  have hsymbol : (call .combinatorSymbol).Completes [] := ⟨['>'], detached_of rfl, _, rfl⟩
  refine completes_rule h hnil fun h => ?_
  rcases reaches_choice.1 h with h | ⟨-, h⟩
  · obtain ⟨t, ht, hx⟩ := completes_seq_blanks rfl (by decide) h fun x h => by
      rcases reaches_seq.1 h with h | ⟨y, -, h⟩
      · exact (completes_leaf rfl hsymbol h).seq_nil (consumes_blanks.2 Blank.skip_nil.symm)
      · exact absurd h (not_reaches_callFree rfl)
    exact ⟨t, ht, consumes_choice.2 (Or.inl hx)⟩
  · obtain rfl := eq_nil_of_leaf rfl h
    exact completes_call.1 hnil

/-! Compounds behind combinators. -/

theorem follows_of_link (h : link.Consumes s t) : Follows s := by
  obtain ⟨y, hy, -⟩ := consumes_seq.1 h
  rintro c r rfl
  by_cases hc : c ∈ '/' :: whitespace
  · exact (by decide : '/' :: whitespace ⊆ followers) hc
  rw [List.mem_cons, not_or] at hc
  have hs : Blank.Settled (c :: r) := settled_of_head (isWhitespace_eq_false hc.2) hc.1 r
  rcases consumes_choice.1 (consumes_call.1 hy) with hy | ⟨-, hy⟩
  · obtain ⟨x, hx, hy⟩ := consumes_seq.1 hy
    obtain ⟨z, hz, -⟩ := consumes_seq.1 hy
    obtain rfl := (consumes_blanks.1 hx).trans hs.skip_eq
    obtain ⟨w, hw, hwz⟩ := consumes_symbol.1 hz
    simp only [symbols, List.mem_cons, List.not_mem_nil, or_false] at hw
    rcases hw with rfl | rfl | rfl | rfl <;> cases hwz <;> decide
  · obtain ⟨ns, hy⟩ := consumes_call.1 hy
    exact absurd hs (Blank.run_ws_eq_some.1 hy).1

theorem follows_nil : Follows [] := fun c r h => by cases h

theorem keeps_link (hk : Follows (v ++ k)) (he : Escape.Ends k) : link.Keeps u k v :=
  .seq (fun _ hx => keeps_combinator_before hx) (keeps_compound hk he)

theorem completes_link (h : link.Reaches (w ++ u) u) : link.Completes w := by
  have hcompound : (call .compoundSelector).Consumes ['z'] [] := ⟨_, rfl⟩
  refine completes_seq h (fun h => ?_) (fun _ h => completes_compound h) fun _ _ _ hx => keeps_combinator_before hx
  exact (completes_combinator h).seq (detached_of rfl) (keeps_combinator_before hcompound) hcompound

theorem follows_of_links (h : (star link).Consumes s t) (ht : Follows t) : Follows s := by
  rcases Relation.ReflTransGen.cases_head ((consumes_star rfl).1 h).1 with rfl | ⟨y, hy, -⟩
  · exact ht
  · exact follows_of_link hy

/-! Complex selectors. -/

theorem keeps_complex (hk : Closed (v ++ k)) (he : Escape.Ends k) : (call .complexSelector).Keeps u k v := by
  refine keeps_call (.seq (fun _ hx => keeps_compound (follows_of_links hx hk.follows) he) ?_)
  exact .star rfl (keeps_link hk.follows he) (fun _ _ hx => keeps_link (follows_of_link hx) he) hk.run_link

theorem completes_complex (h : (call .complexSelector).Reaches (w ++ u) u) : (call .complexSelector).Completes w := by
  refine completes_rule h ⟨['z'], detached_of rfl, _, rfl⟩ fun h => completes_seq h (fun h => ?_) (fun x h => ?_) ?_
  · exact (completes_compound h).seq_nil (consumes_star_nil rfl)
  · exact completes_star rfl h (fun _ h => completes_link h) fun _ _ _ ht hx => keeps_link (follows_of_link hx) ht.ends
  · exact fun _ _ ht hx => keeps_compound (follows_of_links hx follows_nil) ht.ends

/-! Alternatives. -/

theorem closed_of_alternative (h : alternative.Consumes s t) : Closed s := by
  obtain ⟨x, hx, h⟩ := consumes_seq.1 h
  obtain ⟨y, hy, -⟩ := consumes_seq.1 h
  obtain rfl := consumes_exactly.1 (consumes_call.1 hy)
  exact closed_of_comma (consumes_blanks.1 hx).symm

theorem keeps_alternative (hk : Closed (v ++ k)) (he : Escape.Ends k) : alternative.Keeps u k v := by
  refine keeps_seq_blanks rfl (by decide) (.seq (fun _ _ => keeps_call (keeps_char _)) ?_)
  exact keeps_seq_blanks rfl (by decide) (keeps_complex hk he)

theorem completes_alternative (h : alternative.Reaches (w ++ u) u) : alternative.Completes w := by
  have hcomma : (call .comma).Completes [] := ⟨[','], detached_of rfl, _, rfl⟩
  have hcomplex : (seq (maybe ws) (call .complexSelector)).Consumes ['z'] [] := ⟨_, rfl⟩
  refine completes_seq_blanks rfl (by decide) h fun x h => completes_seq h (fun h => ?_) (fun y h => ?_) ?_
  · exact (completes_leaf rfl hcomma h).seq (detached_of rfl) (keeps_call (keeps_char _)) hcomplex
  · exact completes_seq_blanks rfl (by decide) h fun _ h => completes_complex h
  · exact fun _ _ _ _ => keeps_call (keeps_char _)

theorem closed_of_alternatives (h : (star alternative).Consumes s t) (ht : Closed t) : Closed s := by
  rcases Relation.ReflTransGen.cases_head ((consumes_star rfl).1 h).1 with rfl | ⟨y, hy, -⟩
  · exact ht
  · exact closed_of_alternative hy

theorem keeps_list (hk : Closed (v ++ k)) (hcomma : ∀ r, Blank.skip (v ++ k) ≠ ',' :: r) (he : Escape.Ends k) :
    (call .selectorList).Keeps u k v := by
  refine keeps_call (.seq (fun _ hx => keeps_complex (closed_of_alternatives hx hk) he) ?_)
  have halternative ⦃x y : List Char⦄ (hx : alternative.Consumes (x ++ k) y) : alternative.Keeps u k x :=
    keeps_alternative (closed_of_alternative hx) he
  exact .star rfl (keeps_alternative hk he) halternative (run_alternative_none hcomma)

theorem completes_list (h : (call .selectorList).Reaches (w ++ u) u) : (call .selectorList).Completes w := by
  refine completes_rule h ⟨['z'], detached_of rfl, _, rfl⟩ fun h => completes_seq h (fun h => ?_) (fun x h => ?_) ?_
  · exact (completes_complex h).seq_nil (consumes_star_nil rfl)
  · exact completes_star rfl h (fun _ h => completes_alternative h) fun _ _ _ ht hx =>
      keeps_alternative (closed_of_alternative hx) ht.ends
  · exact fun _ _ ht hx => keeps_complex (closed_of_alternatives hx (closed_of_skip Blank.skip_nil)) ht.ends

/-- Whatever is missing where the grammar failed, there is text that provides it. -/
theorem completes_selectors (h : (call .selectors).Reaches (w ++ u) u) : (call .selectors).Completes w := by
  have hend : (seq (maybe ws) (call .endOfInput)).Consumes [] [] := ⟨_, rfl⟩
  have hnil {s : List Char} (h : (call .endOfInput).Consumes s []) : s = [] :=
    (consumes_absent.1 (consumes_call.1 h)).2.symm
  refine completes_rule h ⟨['z'], detached_of rfl, _, rfl⟩ fun h => completes_seq_blanks rfl (by decide) h fun x h => ?_
  refine completes_seq h (fun h => (completes_list h).seq_nil hend) (fun y h => ?_) fun y t ht hx => ?_
  · refine completes_seq_callFree rfl h (fun _ h => completes_leaf rfl ⟨[], .nil, _, rfl⟩ h) fun z t _ hx => ?_
    refine keeps_blanks ?_
    rw [hnil hx]
    exact Blank.settled_iff.2 Blank.skip_nil
  · obtain ⟨z, hz, hx⟩ := consumes_seq.1 hx
    have hskip : Blank.skip (y ++ t) = [] := by rw [← consumes_blanks.1 hz, hnil hx]
    exact keeps_list (closed_of_skip hskip) (by simp [hskip]) ht.ends

end SelectorSyntax.Selector.Spelling
