import SelectorSyntax.Proofs.Completion.Numbers

namespace SelectorSyntax.Selector.Spelling

open Grammar Expression Text CharClass SelectorSyntax.Bracket

variable {f : Expression} {c : Char} {k s t u v w x : List Char}

/-! Names in front of what does not go on with them. -/

theorem ne_nil_of_consumes (hf : f.takes = true) (h : f.Consumes (x ++ k) (v ++ k)) : x ≠ [] := by
  rintro rfl
  have hlt := h.shorter hf
  rw [List.length_append, List.nil_append] at hlt
  omega

/-- In front of other text that begins with no backslash, a name ends where it ended before. -/
theorem keeps_ident_before (hx : x ≠ []) (hf : f.takes = true) (hb : f.begins '\\' (Rule.begins '\\') = false)
    (h : f.Consumes (x ++ k) t) : (call .ident).Keeps u k x := by
  refine keeps_token rfl fun s hs => ?_
  obtain ⟨c, y, rfl⟩ := List.exists_cons_of_ne_nil hx
  have hstop : nmchar.run Rule.run (c :: (y ++ u)) = none := by
    obtain ⟨z, -, hz⟩ := consumes_seq.1 (consumes_call.1 hs)
    exact ((consumes_star rfl).1 hz).2
  have hc : isIdentChar c = false := by
    refine Bool.eq_false_iff.2 fun hc => ?_
    cases hstop.symm.trans (Identifier.run_nmchar_eq_some.2 ⟨Or.inr ⟨c, hc, rfl⟩, rfl⟩)
  have hne : c ≠ '\\' := by
    rintro rfl
    exact not_consumes (run_eq_none_of_begins (y ++ k) hf hb) h
  obtain ⟨ns, hs⟩ := hs
  exact ⟨_, run_ident_replace hs (Stops.cons hc hne).run_nmchar (Or.inl (List.cons_ne_nil c y))⟩

theorem stops_nil : Stops [] := fun c r h => by cases h

/-! Values and their modifiers. -/

def flag : Expression := maybe (seq (maybe ws) (call .attributeModifier))

/-- The comparison with a value behind the name of an attribute. -/
def test : Expression :=
  seqs [maybe ws, call .attributeMatcher, maybe ws, Grammar.attributeValue, flag]

theorem Before.run_seq_blanks (h : Before c k) (hf : f.takes = true) (hb : f.begins c (Rule.begins c) = false) :
    (seq (maybe ws) f).run Rule.run k = none := by
  obtain ⟨r, hr⟩ := h
  refine run_seq_eq_none.2 (Or.inr ⟨_, [], Blank.run_maybe_ws k, ?_⟩)
  rw [hr]
  exact run_eq_none_of_begins r hf hb

theorem keeps_value (hk : (call .ident).Keeps u k v) : Grammar.attributeValue.Keeps u k v := by
  refine .choice keeps_string hk fun s h => ?_
  obtain ⟨c, r, hs, hc⟩ := h.exists_cons rfl
  have hquote : c ∉ ['"', '\''] := not_mem_of (p := fun c => (call .ident).begins c (Rule.begins c)) (by decide) hc
  rw [hs]
  refine run_string_none ?_ r
  simpa [isQuote] using hquote

theorem keeps_modifier (hk : nmchar.run Rule.run (v ++ k) = none) : (call .attributeModifier).Keeps u k v := by
  refine keeps_call (.seq (fun x _ => .choice (keeps_char _) (keeps_char _) fun s hs => ?_)
    (keeps_callFree rfl fun s hs => ?_))
  · obtain ⟨c, hc, hs⟩ := consumes_char.1 hs
    refine run_char_eq_none.2 fun d r hd => ?_
    cases hs.symm.trans hd
    rw [sameLetter, ← of_decide_eq_true hc]
    rfl
  · obtain rfl := eq_of_append_eq (consumes_absent.1 hs).2.symm
    exact consumes_absent.2 ⟨hk, rfl⟩

theorem keeps_flag (hk : Before ']' (v ++ k)) : flag.Keeps u k v := by
  refine .maybe (keeps_seq_blanks rfl (by decide) (keeps_modifier (hk.ahead.stops rfl).run_nmchar)) ?_
  exact hk.run_seq_blanks rfl rfl

theorem keeps_value_flag (hk : Before ']' (v ++ k)) (he : Escape.Ends k) :
    (seq Grammar.attributeValue flag).Keeps u k v := by
  refine .seq (fun x hx => keeps_value ?_) (keeps_flag hk)
  rcases consumes_maybe.1 hx with hx | ⟨-, hx⟩
  · exact keeps_ident_before (ne_nil_of_consumes rfl hx) rfl (by decide) hx
  · obtain rfl := eq_of_append_eq hx
    exact keeps_ident ⟨hk.ahead.stops rfl, Or.inr he⟩

theorem keeps_matcher : (call .attributeMatcher).Keeps u k v := keeps_call (keeps_literals _ (by decide))

theorem keeps_comparison (hk : Before ']' (v ++ k)) (he : Escape.Ends k) : comparison.Keeps u k v := by
  refine .maybe (keeps_seq_blanks rfl (by decide) ?_) (hk.run_seq_blanks rfl rfl)
  exact .seq (fun _ _ => keeps_matcher) (keeps_seq_blanks rfl (by decide) (keeps_value_flag hk he))

/-! The whole attribute. -/

def closing : Expression := seq (maybe ws) (call .bracketClose)

theorem before_of_closing (h : closing.Consumes s t) : Before ']' s := ⟨t, (consumes_closer rfl).1 h⟩

theorem stops_of_closing (h : (seq comparison closing).Consumes s t) : Stops s := by
  obtain ⟨u, hu, hend⟩ := consumes_seq.1 h
  rcases consumes_maybe.1 hu with hu | ⟨-, rfl⟩
  · obtain ⟨x, hx, hu⟩ := consumes_seq.1 hu
    obtain ⟨y, hy, -⟩ := consumes_seq.1 hu
    obtain ⟨w, hw, rfl⟩ := (consumes_literals _ (by decide)).1 (consumes_call.1 hy)
    have hskip := (consumes_blanks.1 hx).symm
    simp only [List.mem_cons, List.not_mem_nil, or_false] at hw
    rcases hw with rfl | rfl | rfl | rfl | rfl | rfl <;> exact (Before.ahead ⟨_, hskip⟩).stops rfl
  · exact (before_of_closing hend).ahead.stops rfl

theorem keeps_attribute (he : Escape.Ends k) : (call .attributeSelector).Keeps u k v := by
  have hclosing : closing.Keeps u k v := keeps_seq_blanks rfl (by decide) (keeps_call (keeps_char _))
  have hrest : (seq comparison closing).Keeps u k v :=
    .seq (fun _ hx => keeps_comparison (before_of_closing hx) he) hclosing
  have hname : (seq (call .ident) (seq comparison closing)).Keeps u k v :=
    .seq (fun _ hx => keeps_ident ⟨stops_of_closing hx, Or.inr he⟩) hrest
  exact keeps_call (.seq (fun _ _ => keeps_char _) (keeps_seq_blanks rfl (by decide) hname))

theorem completes_value_flag (h : (seq Grammar.attributeValue flag).Reaches (w ++ u) u) :
    (seq Grammar.attributeValue flag).Completes w := by
  rcases reaches_seq.1 h with h | ⟨y, hy, h⟩
  · have hw : w = [] := by
      rcases reaches_choice.1 h with h | ⟨-, h⟩
      · exact eq_nil_of_leaf rfl h
      · exact eq_nil_of_leaf rfl h
    subst hw
    exact ⟨['z'], detached_of rfl, _, rfl⟩
  · obtain ⟨x, rfl⟩ := exists_append_of_suffix (v := []) h.suffix
    by_cases hx : x = []
    · subst hx
      have hvalue : Grammar.attributeValue.Keeps u [] [] :=
        keeps_value (keeps_ident ⟨stops_nil, Or.inr Detached.nil.ends⟩)
      exact ⟨[], .nil, consumes_seq.2 ⟨[], hvalue.consumes (lasting_of_mute Detached.nil.mute) hy, _, rfl⟩⟩
    · obtain ⟨z, hz, h⟩ := (reaches_seq_callFree rfl).1 (reaches_maybe.1 h)
      obtain rfl := (reaches_leaf rfl).1 h
      -- Behind the value there is a blank, so that a modifier goes on neither with a name nor with an escape.
      have hd : Detached ['i'] := detached_of rfl
      have hflag : (seq (maybe ws) (call .attributeModifier)).Consumes (x ++ ['i']) [] := by
        have hblanks : (maybe ws).Keeps u ['i'] [] := keeps_blanks (settled_of_head rfl (by decide) [])
        exact consumes_seq.2 ⟨['i'], hblanks.consumes (lasting_of_mute hd.mute) hz, _, rfl⟩
      have hvalue : Grammar.attributeValue.Keeps u ['i'] x := keeps_value (keeps_ident_before hx rfl (by decide) hflag)
      have hvalue := hvalue.consumes (lasting_of_mute hd.mute) hy
      exact ⟨['i'], hd, consumes_seq.2 ⟨x ++ ['i'], hvalue, consumes_maybe.2 (Or.inl hflag)⟩⟩

theorem completes_comparison (h : comparison.Reaches (w ++ u) u) : comparison.Completes w := by
  have hmatcher : (call .attributeMatcher).Completes [] := ⟨['='], detached_of rfl, _, rfl⟩
  have hrest : (seqs [maybe ws, Grammar.attributeValue, flag]).Consumes ['z'] [] := ⟨_, rfl⟩
  have htest : test.Completes w := by
    refine completes_seq_blanks rfl (by decide) (reaches_maybe.1 h) fun x h => ?_
    refine completes_seq h (fun h => ?_) (fun y h => ?_) fun _ _ _ _ => keeps_matcher
    · exact (completes_leaf rfl hmatcher h).seq (detached_of rfl) keeps_matcher hrest
    · exact completes_seq_blanks rfl (by decide) h fun _ h => completes_value_flag h
  obtain ⟨t, ht, htest⟩ := htest
  exact ⟨t, ht, consumes_maybe.2 (Or.inl htest)⟩

theorem completes_attribute (h : (call .attributeSelector).Reaches (w ++ u) u) :
    (call .attributeSelector).Completes w := by
  have hclose : (call .bracketClose).Completes [] := ⟨[']'], detached_of rfl, _, rfl⟩
  have hname : (call .ident).Completes [] := ⟨['z'], detached_of rfl, _, rfl⟩
  have hend : closing.Consumes [']'] [] := ⟨_, rfl⟩
  have hclosed : (seq comparison closing).Consumes [']'] [] := ⟨_, rfl⟩
  refine completes_rule h ⟨['[', 'z', ']'], detached_of rfl, _, rfl⟩ fun h => ?_
  refine completes_seq_callFree rfl h (fun x h => ?_) fun _ _ _ _ => keeps_char _
  refine completes_seq_blanks rfl (by decide) h fun y h => completes_seq h (fun h => ?_) (fun z h => ?_) ?_
  · refine (completes_leaf rfl hname h).seq (detached_of rfl) (keeps_ident ⟨stops_of_closing hclosed, Or.inr ?_⟩) hclosed
    exact (detached_of rfl : Detached [']']).ends
  · refine completes_seq h (fun h => ?_) (fun x h => ?_) fun _ _ ht hx => keeps_comparison (before_of_closing hx) ht.ends
    · have hd : Detached [']'] := detached_of rfl
      exact (completes_comparison h).seq hd (keeps_comparison (before_of_closing hend) hd.ends) hend
    · exact completes_seq_blanks rfl (by decide) h fun _ h => completes_leaf rfl hclose h
  · exact fun _ _ ht hx => keeps_ident ⟨stops_of_closing hx, Or.inr ht.ends⟩

end SelectorSyntax.Selector.Spelling
