import SelectorSyntax.Proofs.Completion.Attributes
import SelectorSyntax.Proofs.Cut.Arguments

namespace SelectorSyntax.Bracket

open Grammar Grammar.Expression Selector.Spelling Text CharClass

variable {c o : Char} {e f : Expression} {q r : Rule} {P Q : List Char → Prop} {s t u v w x y : List Char} {ns : List Node}

/-! Tokens that end in front of the cut end there without what is behind it. -/

theorem nmchar_cut (h : nmchar.run Rule.run (y ++ u) = none) : nmchar.run Rule.run y = none := by
  cases y with
  | nil => exact Identifier.run_nmchar_nil
  | cons c y =>
      rw [List.cons_append, Identifier.run_nmchar_cons] at h
      rw [Identifier.run_nmchar_cons]
      by_cases hb : c = '\\'
      · rw [if_pos hb, Option.map_eq_none_iff] at h ⊢
        cases y with
        | nil => rfl
        | cons d y =>
            cases hd : isNewline d with
            | true => rw [Escape.read, if_pos hd]
            | false =>
                obtain ⟨c, v, hread⟩ := Escape.exists_read (s := d :: (y ++ u)) (by simpa [Escape.isValid] using hd)
                cases h.symm.trans hread
      · simpa [hb] using h

theorem keeps_ident_cut : (call .ident).Keeps u [] y := by
  refine keeps_token rfl fun s ⟨ns, h⟩ => ?_
  obtain ⟨_, -, hi, -⟩ := Identifier.run_ident_eq_some.1 h
  exact ⟨_, run_ident_replace h (by simpa using nmchar_cut hi.done) (Or.inr Detached.nil.ends)⟩

theorem keeps_modifier_cut : (call .attributeModifier).Keeps u [] y := by
  intro s ns h
  obtain ⟨v, -, hv⟩ := consumes_seq.1 (consumes_call.1 ⟨ns, h⟩)
  obtain ⟨hstop, rfl⟩ := consumes_absent.1 hv
  exact keeps_modifier (by simpa using nmchar_cut hstop) h

theorem keeps_cut (h : e.Keeps u [] y) (hs : e.Consumes (x ++ u) (y ++ u)) : e.Consumes x y := by
  simpa using h.consumes (lasting_of_mute Detached.nil.mute) hs

/-! What is matched up to the cut and beyond. -/

/-- An expression that ends at `t` ends in front of the cut, where it does without what is behind that, or the text is
balanced up to the cut and something is asked for there. -/
inductive Halts (e : Expression) (u x : List Char) : List Char → Prop
  | taken {y ps} : e.Consumes x y → Balanced (x ++ u) (y ++ u) ps → Halts e u x (y ++ u)
  | asked {t ps} : Balanced (x ++ u) u ps → e.Asks x → Halts e u x t

/-- The expression halts wherever it is matched with an end of some kind. -/
def Cuts (e : Expression) (u : List Char) (P : List Char → Prop) : Prop :=
  ∀ ⦃x t ns⦄, e.run Rule.run (x ++ u) = some (t, ns) → P t → Uncut u ns → Unsplit u (x ++ u) → Halts e u x t

theorem cuts_token (hr : r.isToken = true) (hsolid : r ∈ solid) (hw : r.isWanted = true) (ha : ∀ s, Admits r s)
    (hk : ∀ ⦃y⦄, P (y ++ u) → Unsplit u (y ++ u) → (call r).Keeps u [] y) : Cuts (call r) u P := by
  intro x t ns h ht hns hs
  by_cases hx : x = []
  · subst hx
    exact .asked .nil (asks_nil hw)
  · obtain ⟨v, hv, rfl, -⟩ := run_token hr h
    obtain ⟨y, rfl⟩ := exists_append_of_not_within ⟨v, hv.symm⟩ hx (hns.node.1 hsolid)
    have hb := balanced_token hr (ha _) h
    exact .taken (keeps_cut (hk ht (hs.visits hb.visits)) ⟨_, h⟩) hb

theorem Cuts.blanks (hf : Cuts f u P) (hask : f.Asks []) : Cuts (seq (maybe ws) f) u P := by
  intro x t ns h ht hns hs
  obtain ⟨v, ms, ks, hv, hf', rfl⟩ := run_seq_eq_some.1 h
  obtain rfl := consumes_blanks.1 ⟨ms, hv⟩
  rcases skip_cut hs with ⟨y, hy, hyx⟩ | ⟨hx, ps, hps⟩
  · have hskip := balanced_skip (x ++ u)
    rw [hy] at hf' hskip
    have hblanks : (maybe ws).Consumes x y := consumes_blanks.2 hyx.symm
    cases hf hf' ht (uncut_append.1 hns).2 (hs.visits hskip.visits) with
    | taken hz hb => exact .taken (consumes_seq.2 ⟨y, hblanks, hz⟩) (hskip.trans hb)
    | asked hb ha => exact .asked (hskip.trans hb) (.second hblanks ha)
  · exact .asked hps (.second (consumes_blanks.2 hx.symm) hask)

theorem Cuts.seq (he : Cuts e u Q) (hf : Cuts f u P) (hQ : ∀ ⦃v t⦄, f.Consumes v t → P t → Q v) :
    Cuts (seq e f) u P := by
  intro x t ns h ht hns hs
  obtain ⟨v, ms, ks, hv, hf', rfl⟩ := run_seq_eq_some.1 h
  obtain ⟨hms, hks⟩ := uncut_append.1 hns
  cases he hv (hQ ⟨ks, hf'⟩ ht) hms hs with
  | taken hy hb =>
      cases hf hf' ht hks (hs.visits hb.visits) with
      | taken hz hb' => exact .taken (consumes_seq.2 ⟨_, hy, hz⟩) (hb.trans hb')
      | asked hb' ha => exact .asked (hb.trans hb') (.second hy ha)
  | asked hb ha => exact .asked hb ha.first

/-- The bracket that is closed behind the blanks is closed behind the cut. -/
def Shut (c : Char) (u t : List Char) : Prop := ∃ r, Blank.skip t = c :: r ∧ r.length < u.length

theorem Shut.cut (h : Shut c u (x ++ u)) (hs : Unsplit u (x ++ u)) : Blank.skip x = [] ∧ ∃ ps, Balanced (x ++ u) u ps := by
  obtain ⟨r, hr, hlt⟩ := h
  rcases skip_cut hs with ⟨y, hy, hyx⟩ | hcut
  · cases y with
    | nil => exact ⟨hyx, [], by simpa [hy] using balanced_skip (x ++ u)⟩
    | cons d y =>
        rw [hr, List.cons_append] at hy
        cases hy
        rw [List.length_append] at hlt
        omega
  · exact hcut

theorem Cuts.maybe (he : Cuts e u (Shut c u)) (hask : ∀ ⦃x⦄, Blank.skip x = [] → e.Asks x) :
    Cuts (maybe e) u (Shut c u) := by
  intro x t ns h ht hns hs
  rcases run_maybe_eq_some.1 h with h | ⟨-, rfl, -⟩
  · cases he h ht hns hs with
    | taken hy hb => exact .taken (consumes_maybe.2 (Or.inl hy)) hb
    | asked hb ha => exact .asked hb ha.maybe
  · obtain ⟨hx, ps, hb⟩ := ht.cut hs
    exact .asked hb (hask hx).maybe

theorem shut_of_closer (hb : body q = exactly c) (h : (seq (maybe ws) (call q)).Consumes v t)
    (ht : t.length < u.length) : Shut c u v := ⟨t, (consumes_closer hb).1 h, ht⟩

theorem cuts_closer (hb : body q = exactly c) (hw : q.isWanted = true) :
    Cuts (seq (maybe ws) (call q)) u fun t => t.length < u.length := by
  intro x t ns h ht _ hs
  obtain ⟨hx, ps, hb⟩ := (shut_of_closer hb ⟨ns, h⟩ ht).cut hs
  exact .asked hb (.second (consumes_blanks.2 hx.symm) (asks_nil hw))

/-! The inside of brackets that are cut. -/

theorem cuts_number : Cuts (seqs [maybe ws, call .nthValue, maybe ws, call .parenClose]) u
    fun t => t.length < u.length := by
  have hvalue : Cuts (call .nthValue) u (Shut ')' u) := by
    refine cuts_token rfl (by decide) (by decide) (fun _ => trivial) fun y hy hs => keeps_nthValue fun c r hc => ?_
    rw [List.append_nil, (hy.cut hs).1] at hc
    cases hc
  exact .blanks (.seq hvalue (cuts_closer rfl (by decide)) fun _ _ => shut_of_closer rfl) (asks_nil (by decide)).first

theorem cuts_flag : Cuts flag u (Shut ']' u) := by
  have hmodifier : Cuts (call .attributeModifier) u (Shut ']' u) :=
    cuts_token rfl (by decide) (by decide) (fun _ => trivial) fun _ _ _ => keeps_modifier_cut
  refine .maybe (.blanks hmodifier (asks_nil (by decide))) fun x hx => ?_
  exact .second (consumes_blanks.2 hx.symm) (asks_nil (by decide))

theorem cuts_value : Cuts Grammar.attributeValue u fun _ => True := by
  intro x t ns h _ hns _
  by_cases hx : x = []
  · subst hx
    exact .asked .nil (asks_nil (by decide)).left
  have htoken {r : Rule} (hr : r.isToken = true) (hsolid : r ∈ solid) (ha : Admits r (x ++ u))
      (hrun : r.run (x ++ u) = some (t, ns)) : Halts Grammar.attributeValue u x t := by
    obtain ⟨v, hv, rfl, -⟩ := run_token hr hrun
    obtain ⟨y, rfl⟩ := exists_append_of_not_within ⟨v, hv.symm⟩ hx (hns.node.1 hsolid)
    exact .taken (keeps_cut (keeps_value keeps_ident_cut) ⟨_, h⟩) (balanced_token hr ha hrun)
  rcases run_choice_eq_some.1 h with h | ⟨-, h⟩
  · exact htoken (r := .string) rfl (by decide) trivial h
  · exact htoken (r := .ident) rfl (by decide) trivial h

theorem cuts_comparison : Cuts comparison u (Shut ']' u) := by
  have hmatcher : Cuts (call .attributeMatcher) u fun _ => True :=
    cuts_token rfl (by decide) (by decide) (fun _ => trivial) fun _ _ _ => keeps_matcher
  have hvalue : Cuts (seq (maybe ws) (seq Grammar.attributeValue flag)) u (Shut ']' u) :=
    .blanks (.seq cuts_value cuts_flag fun _ _ _ _ => trivial) (asks_nil (by decide)).left.first
  have htest : Cuts test u (Shut ']' u) :=
    .blanks (.seq hmatcher hvalue fun _ _ _ _ => trivial) (asks_nil (by decide)).first
  refine .maybe htest fun x hx => ?_
  exact .second (consumes_blanks.2 hx.symm) (asks_nil (by decide)).first

theorem cuts_attribute : Cuts (seqs [maybe ws, call .ident, comparison, maybe ws, call .bracketClose]) u
    fun t => t.length < u.length := by
  have hname : Cuts (call .ident) u fun _ => True :=
    cuts_token rfl (by decide) (by decide) (fun _ => trivial) fun _ _ _ => keeps_ident_cut
  have hrest : Cuts (seq comparison (seq (maybe ws) (call .bracketClose))) u fun t => t.length < u.length :=
    .seq cuts_comparison (cuts_closer rfl (by decide)) fun _ _ => shut_of_closer rfl
  exact .blanks (.seq hname hrest fun _ _ _ _ => trivial) (asks_nil (by decide)).first

/-! Rules whose brackets are cut. -/

/-- Brackets are open at the cut, and something is asked for there. -/
def Stuck (e : Expression) (u x : List Char) : Prop := (∃ cs, cs ≠ [] ∧ Unclosed (x ++ u) u cs) ∧ e.Asks x

/-- Behind the opener brackets may be open at the cut, and something is asked for there. -/
def Inner (e : Expression) (u : List Char) : Prop :=
  ∀ ⦃x t ns⦄, e.run Rule.run (x ++ u) = some (t, ns) → t.length < u.length → Uncut u ns → Unsplit u (x ++ u) →
    (∃ cs, Unclosed (x ++ u) u cs) ∧ e.Asks x

theorem Cuts.inner (h : Cuts e u fun t => t.length < u.length) : Inner e u := by
  intro x t ns hrun ht hns hs
  cases h hrun ht hns hs with
  | taken =>
      rw [List.length_append] at ht
      omega
  | asked hb ha => exact ⟨⟨[], .balanced hb⟩, ha⟩

theorem inner_arguments : Inner (seqs [maybe ws, maybe (call .argument), maybe ws, call .parenClose]) u := by
  intro x t ns h ht hns hs
  have hgroup : (group '(' .parenClose).run Rule.run ('(' :: (x ++ u)) = some (t, ns) :=
    run_seq_eq_some.2 ⟨_, [], ns, run_exactly_eq_some.2 ⟨rfl, rfl⟩, h, rfl⟩
  rcases splits_group rfl rfl (fun y _ => splits_argument u y) hgroup hns hs with ⟨z, rfl⟩ | ⟨cs, hcs⟩
  · rw [List.length_append] at ht
    omega
  · have hend := hcs.replace Detached.nil.mute
    rw [List.append_nil] at hend
    exact ⟨⟨cs, hcs⟩, asks_of_unclosed hend (by decide)⟩

theorem Inner.stuck (hf : Inner f u) (hb : body r = .seq (exactly o) f) (ho : isOpener o = true) (hc : openerOf? c = some o)
    (hsil : r.isSilent = false) (htok : r.isToken = false) (hx : x ≠ []) (h : r.run (x ++ u) = some (t, ns))
    (ht : t.length < u.length) (hns : Uncut u ns) (hs : Unsplit u (x ++ u)) : Stuck (call r) u x := by
  obtain ⟨ms, hm, rfl⟩ := (Rule.run_node hsil).1 h
  rw [hb] at hm
  obtain ⟨v, ks, ls, hv, hin, rfl⟩ := run_seq_eq_some.1 hm
  obtain ⟨hopen, rfl⟩ := run_exactly_eq_some.1 hv
  obtain ⟨d, x, rfl⟩ := List.exists_cons_of_ne_nil hx
  cases hopen
  have hchildren := hns.node.2
  rw [htok, if_neg Bool.false_ne_true, List.nil_append] at hchildren
  have hpiece := piece?_bracket (isBracket_of_opener ho) (x ++ u)
  obtain ⟨⟨cs, hcs⟩, ha⟩ := hf hin ht hchildren (hs.visits (.next hpiece .here))
  refine ⟨⟨cs ++ [c], by simp, .opener .nil ho hc hcs⟩, .call ?_⟩
  rw [hb]
  exact .second (consumes_exactly.2 rfl) ha

end SelectorSyntax.Bracket
