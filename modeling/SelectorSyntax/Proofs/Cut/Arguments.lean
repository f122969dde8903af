import SelectorSyntax.Proofs.Cut.Asks
import SelectorSyntax.Proofs.Cut.Places

namespace SelectorSyntax.Bracket

open Relation Grammar Grammar.Expression Selector.Spelling Text CharClass

variable {c o : Char} {q : Rule} {cs r s t u v x y : List Char} {ns : List Node} {ps qs : List (List Char × List Char)}

/-! An argument that is cut has brackets open in front of the cut, or none. -/

theorem consumes_space : (maybe (call .argSpace)).Consumes s t ↔ t = Blank.skip s := by
  by_cases hs : Blank.Settled s
  · rw [consumes_maybe, hs.skip_eq]
    exact ⟨fun h => h.elim (fun h => absurd h (not_consumes (run_argSpace_none.2 hs))) And.right,
      fun h => Or.inr ⟨run_argSpace_none.2 hs, h⟩⟩
  · have hspace : (call .argSpace).Consumes s (Blank.skip s) := ⟨_, run_argSpace hs⟩
    rw [consumes_maybe]
    exact ⟨fun h => h.elim (fun h => h.unique hspace) fun h => absurd h.1 hspace.ne_none, fun h => Or.inl (h ▸ hspace)⟩

/-- A match from `s` to `t` ends in front of the cut, or the brackets open in front of the cut are known. -/
def Splits (u s t : List Char) : Prop := (∃ z, t = z ++ u) ∨ ∃ cs, Unclosed s u cs

theorem Balanced.splits (h : Balanced s v ps) (hv : Splits u v t) : Splits u s t := by
  rcases hv with hv | ⟨cs, hcs⟩
  · exact Or.inl hv
  · exact Or.inr ⟨cs, hcs.after h⟩

theorem splits_of_balanced (h : Balanced s u ps) : Splits u s t := Or.inr ⟨[], .balanced h⟩

/-- An optional argument that is matched here splits at the cut. -/
def SplitsArgument (u y : List Char) : Prop :=
  ∀ ⦃t ns⦄, (maybe (call .argument)).run Rule.run (y ++ u) = some (t, ns) → Blank.comment? (y ++ u) = none →
    Uncut u ns → Unsplit u (y ++ u) → Splits u (y ++ u) t

theorem splits_group (hb : body q = exactly c) (hq : q.isSilent = false)
    (ih : ∀ y, y.length ≤ x.length → SplitsArgument u y) (h : (group o q).run Rule.run (o :: (x ++ u)) = some (t, ns))
    (hns : Uncut u ns) (hs : Unsplit u (x ++ u)) : Splits u (x ++ u) t := by
  obtain ⟨w, v, ms, hw, hm, hv, rfl⟩ := (run_group_eq_some hb hq).1 h
  obtain rfl := (List.cons.inj hw).2
  have hms := (uncut_append.1 hns).1
  have hskip := balanced_skip (x ++ u)
  have hsettled := (Blank.settled_skip (x ++ u)).comment
  rcases skip_cut hs with ⟨y, hy, hyx⟩ | ⟨-, ps, hps⟩
  · rw [hy] at hm hskip hsettled
    have hle : y.length ≤ x.length := hyx ▸ (Blank.skip_suffix x).length_le
    rcases ih y hle hm hsettled hms (hs.visits hskip.visits) with ⟨z, rfl⟩ | hopen
    · obtain ⟨ps, hps⟩ := balanced_maybe_argument hsettled ⟨_, hm⟩
      have hreach := hskip.trans hps
      rcases skip_cut (hs.visits hreach.visits) with ⟨w, hw, -⟩ | ⟨-, qs, hqs⟩
      · rw [hv] at hw
        have hclose := hreach.trans (balanced_skip (z ++ u))
        rw [hv] at hclose
        cases w with
        | nil =>
            rw [List.nil_append] at hw
            exact splits_of_balanced (hw ▸ hclose)
        | cons d w => exact Or.inl ⟨w, (List.cons.inj hw).2⟩
      · exact splits_of_balanced (hreach.trans hqs)
    · exact hskip.splits (Or.inr hopen)
  · exact splits_of_balanced hps

theorem splits_item (ih : ∀ y, y.length < x.length → SplitsArgument u y) (h : argItem.run Rule.run (x ++ u) = some (t, ns))
    (hns : Uncut u ns) (hs : Unsplit u (x ++ u)) : Splits u (x ++ u) t := by
  by_cases hx : x = []
  · subst hx
    exact splits_of_balanced .nil
  have htoken {r : Rule} (hr : r.isToken = true) (hsolid : r ∈ solid) (h : r.run (x ++ u) = some (t, ns)) :
      ∃ z, t = z ++ u := by
    obtain ⟨w, hw, rfl, -⟩ := run_token hr h
    exact exists_append_of_not_within ⟨w, hw.symm⟩ hx (hns.node.1 hsolid)
  obtain ⟨e, he, h⟩ := run_choices_some h
  simp only [List.mem_cons, List.not_mem_nil, or_false] at he
  rcases he with rfl | rfl | rfl | rfl | rfl
  · exact Or.inl (htoken (r := .string) rfl (by decide) h)
  · exact Or.inl (htoken (r := .number) rfl (by decide) h)
  · exact Or.inl (htoken (r := .ident) rfl (by decide) h)
  · obtain ⟨ms, hm, rfl⟩ := (Rule.run_node (r := .argGroup) rfl).1 h
    have hgroup {p : Char} {q : Rule} {d : Char} (hb : body q = exactly d) (hq : q.isSilent = false)
        (hp : isOpener p = true) (hd : openerOf? d = some p) (hm : (group p q).run Rule.run (x ++ u) = some (t, ms)) :
        Splits u (x ++ u) t := by
      obtain ⟨d, x, rfl⟩ := List.exists_cons_of_ne_nil hx
      obtain ⟨w, v, ks, hw, -⟩ := (run_group_eq_some hb hq).1 hm
      obtain rfl := (List.cons.inj hw).1
      have hopen := piece?_bracket (isBracket_of_opener hp) (x ++ u)
      have hin := splits_group hb hq (fun y hy => ih y (Nat.lt_succ_of_le hy)) hm hns.node.2 (hs.visits (.next hopen .here))
      rcases hin with hin | ⟨cs, hcs⟩
      · exact Or.inl hin
      · exact Or.inr ⟨_, .opener .nil hp hd hcs⟩
    rcases run_choice_eq_some.1 hm with hm | ⟨-, hm⟩
    · exact hgroup rfl rfl rfl rfl hm
    · exact hgroup rfl rfl rfl rfl hm
  · obtain ⟨c, -, hs, -⟩ := run_argDelim_eq_some.1 h
    obtain ⟨d, x, rfl⟩ := List.exists_cons_of_ne_nil hx
    exact Or.inl ⟨x, (List.cons.inj hs).2.symm⟩

theorem shorter_of_item (h : argItem.run Rule.run (x ++ u) = some (y ++ u, ns)) : y.length < x.length := by
  have hlt := run_shorter Rule.lawful_run argItem rfl h
  rw [List.length_append, List.length_append] at hlt
  exact Nat.lt_of_add_lt_add_right hlt

theorem splits_rounds (ih : ∀ y, y.length < x.length → SplitsArgument u y)
    (h : Iterates (round.run Rule.run) (x ++ u) t ns) (hns : Uncut u ns) (hs : Unsplit u (x ++ u)) :
    Splits u (x ++ u) t := by
  generalize hxu : x ++ u = s at h
  induction h generalizing x with
  | stop => exact Or.inl ⟨x, hxu.symm⟩
  | @next a v t ks ls hround hi ihi =>
      subst hxu
      obtain ⟨hks, hls⟩ := uncut_append.1 hns
      obtain ⟨w, ms, ms', hw, hitem, rfl⟩ := run_seq_eq_some.1 hround
      obtain rfl := consumes_space.1 ⟨_, hw⟩
      rcases skip_cut hs with ⟨y, hy, hyx⟩ | ⟨-, ps, hps⟩
      · have hskip := balanced_skip (x ++ u)
        have hsettled := (Blank.settled_skip (x ++ u)).comment
        rw [hy] at hitem hskip hsettled
        have hle : y.length ≤ x.length := hyx ▸ (Blank.skip_suffix x).length_le
        have hclear := hs.visits hskip.visits
        rcases splits_item (fun z hz => ih z (by omega)) hitem (uncut_append.1 hks).2 hclear with ⟨z, rfl⟩ | hopen
        · have hitem' := balanced_argItem hsettled hitem
          have hz := shorter_of_item hitem
          exact (hskip.trans hitem').splits (ihi (fun w hw => ih w (by omega)) hls (hclear.visits hitem'.visits) rfl)
        · exact hskip.splits (Or.inr hopen)
      · exact splits_of_balanced hps

theorem splits_argument (u x : List Char) : SplitsArgument u x := by
  induction hn : x.length using Nat.strongRecOn generalizing x with
  | ind n ih =>
      have ih (y : List Char) (hy : y.length < x.length) : SplitsArgument u y := ih y.length (hn ▸ hy) y rfl
      intro t ns h hsettled hns hs
      rcases run_maybe_eq_some.1 h with h | ⟨-, rfl, -⟩
      · obtain ⟨ms, hm, rfl⟩ := (Rule.run_node rfl).1 h
        obtain ⟨v, ks, ls, hitem, hrest, rfl⟩ := run_seq_eq_some.1 hm
        obtain ⟨hks, hls⟩ := uncut_append.1 hns.node.2
        have hi := (run_star_eq_some Rule.lawful_run rfl).1 hrest
        rcases splits_item ih hitem hks hs with ⟨y, rfl⟩ | hopen
        · have hitem' := balanced_argItem hsettled hitem
          have hy := shorter_of_item hitem
          exact hitem'.splits (splits_rounds (fun z hz => ih z (by omega)) hi hls (hs.visits hitem'.visits))
        · exact Or.inr hopen
      · exact Or.inl ⟨x, rfl⟩

/-! What is asked for at the end of an argument whose brackets are open. -/

theorem Balanced.rest_opener (h : Balanced s t []) (h' : Balanced s (o :: r) ps) (ho : isOpener o = true) :
    ∃ qs, Balanced t (o :: r) qs := by
  generalize hps : ([] : List (List Char × List Char)) = qs at h
  induction h generalizing ps with
  | nil => exact ⟨ps, h'⟩
  | unit hu _ ih =>
      cases h' with
      | nil =>
          rw [unit?_opener ho] at hu
          cases hu
      | unit hu' h' =>
          cases hu.symm.trans hu'
          exact ih h' hps
      | group hp =>
          rw [unit?_opener hp] at hu
          cases hu
  | group => simp at hps

theorem balanced_group (hb : body q = exactly c) (hcl : isCloser q = true) (hcalls : CallsPaired (group o q) s)
    (h : (group o q).run Rule.run s = some (t, ns)) : ∃ x ps, s = o :: x ∧ Balanced x (c :: t) ps := by
  obtain ⟨x, ks, ls, hx, hv, -⟩ := run_seq_eq_some.1 h
  obtain ⟨hbal, -⟩ := (closes_group hcl hb).balanced (fun r y hr => hcalls r y (.second hx hr)) hv
  exact ⟨x, _, (run_exactly_eq_some.1 hx).1, hbal⟩

theorem balanced_argGroup (h : (call .argGroup).Consumes s t) :
    ∃ o c x ps, isOpener o = true ∧ openerOf? c = some o ∧ s = o :: x ∧ Balanced x (c :: t) ps := by
  obtain ⟨ns, h⟩ := h
  obtain ⟨ms, hm, -⟩ := (Rule.run_node rfl).1 h
  have hcalls : CallsPaired (body .argGroup) s := callsPaired rfl s
  rcases run_choice_eq_some.1 hm with hm | ⟨hn, hm⟩
  · obtain ⟨x, ps, hx⟩ := balanced_group rfl rfl (fun r y hr => hcalls r y (.left hr)) hm
    exact ⟨'(', ')', x, ps, rfl, rfl, hx⟩
  · obtain ⟨x, ps, hx⟩ := balanced_group rfl rfl (fun r y hr => hcalls r y (.right hn hr)) hm
    exact ⟨'[', ']', x, ps, rfl, rfl, hx⟩

/-- Behind an item in front of an opener the text up to the opener is balanced, unless the item begins with it. -/
theorem rest_of_argItem (hs : Blank.comment? s = none) (hi : argItem.Consumes s t) (ho : isOpener o = true)
    (h : Balanced s (o :: r) ps) (hne : s ≠ o :: r) : ∃ qs, Balanced t (o :: r) qs := by
  obtain ⟨ns, hi⟩ := hi
  have htoken {q : Rule} (hq : q.isToken = true) (ha : Admits q s) (hrun : q.run s = some (t, ns)) :
      ∃ qs, Balanced t (o :: r) qs := (balanced_token hq ha hrun).rest_opener h ho
  obtain ⟨e, he, hi⟩ := run_choices_some hi
  simp only [List.mem_cons, List.not_mem_nil, or_false] at he
  rcases he with rfl | rfl | rfl | rfl | rfl
  · exact htoken (q := .string) rfl trivial hi
  · exact htoken (q := .number) rfl trivial hi
  · exact htoken (q := .ident) rfl trivial hi
  · obtain ⟨p, c, x, qs, hp, hc, rfl, hin⟩ := balanced_argGroup ⟨ns, hi⟩
    cases h with
    | nil => exact absurd rfl hne
    | unit hu =>
        rw [unit?_opener hp] at hu
        cases hu
    | group _ hc' hin' hrest =>
        cases hin.closer_unique hin' ⟨_, _, _, rfl, hc⟩ ⟨_, _, _, rfl, hc'⟩
        exact ⟨_, hrest⟩
  · exact htoken (q := .argDelim) rfl hs hi

/-- The rounds of an argument come to any opener that no other brackets surround. -/
theorem rounds_to_opener (ho : isOpener o = true) (h : Balanced s (o :: r) ps) :
    ∃ t, ReflTransGen round.Consumes s t ∧ Blank.skip t = o :: r := by
  induction hn : s.length using Nat.strongRecOn generalizing s ps with
  | ind n ih =>
      have hle := (Blank.skip_suffix s).length_le
      obtain ⟨qs, hb⟩ := (balanced_skip s).rest_opener h ho
      have hitem (hne : argItem.run Rule.run (Blank.skip s) ≠ none) (hx : Blank.skip s ≠ o :: r) :
          ∃ t, ReflTransGen round.Consumes s t ∧ Blank.skip t = o :: r := by
        obtain ⟨⟨v, ms⟩, hv⟩ := Option.ne_none_iff_exists'.1 hne
        have hlt := run_shorter Rule.lawful_run argItem rfl hv
        obtain ⟨rs, hr⟩ := rest_of_argItem (Blank.settled_skip s).comment ⟨ms, hv⟩ ho hb hx
        obtain ⟨t, ht, hskip⟩ := ih v.length (by omega) hr rfl
        obtain ⟨ks, hks⟩ := run_round_of_argItem hv
        exact ⟨t, .head ⟨ks, hks⟩ ht, hskip⟩
      by_cases hx : Blank.skip s = o :: r
      · exact ⟨s, .refl, hx⟩
      refine hitem ?_ hx
      generalize hs : Blank.skip s = x at hb hx
      cases hb with
      | nil => exact absurd rfl hx
      | unit hu => exact run_argItem_of_unit (hs ▸ Blank.settled_skip s) hu
      | @group p d w v _ _ _ hp hd hin _ =>
          obtain ⟨t, ns, hi, ht⟩ := iterates_of_balanced hin hd
          intro hnone
          exact run_argGroup_of_iterates hp hd hi ht (run_choices_eq_none.1 hnone (call .argGroup) (by simp))

theorem asks_argument (ht : ReflTransGen round.Consumes s t) (h : argItem.Asks (Blank.skip t)) :
    (call .argument).Asks (Blank.skip s) := by
  refine .call ?_
  rcases ReflTransGen.cases_head ht with rfl | ⟨v, ⟨ns, hv⟩, hrest⟩
  · exact h.first
  · obtain ⟨ms, hm⟩ := run_argItem_of_round hv
    exact .second ⟨ms, hm⟩ (.round hrest (.second (consumes_space.2 rfl) h))

/-- Where brackets are open, a closer or what else may stand there is asked for at the end. -/
theorem asks_of_unclosed (h : Unclosed s [] cs) (hq : q.isWanted = true) :
    (seqs [maybe ws, maybe (call .argument), maybe ws, call q]).Asks s := by
  generalize hu : ([] : List Char) = u at h
  induction h generalizing q with
  | balanced hb =>
      subst hu
      obtain ⟨t, ns, hi, ht⟩ := iterates_of_reading ((hb.reading_isSome []).trans (by rw [reading]; rfl))
      obtain ⟨v, ms, hm, hv⟩ := maybe_argument_of_iterates hi
      have hnil : Blank.skip t = [] := by
        rcases ht with ⟨-, ht⟩ | ⟨c, o, r, rest, -, -, hs⟩
        · exact ht
        · cases hs
      refine .second (consumes_blanks.2 rfl) (.second ⟨ms, hm⟩ (.second (consumes_blanks.2 rfl) ?_))
      rw [hv, hnil]
      exact asks_nil hq
  | @opener s o c r u ps cs hb ho _ _ ih =>
      have hinner {p : Rule} (hp : p.isWanted = true) : (group o p).Asks (o :: r) :=
        .second (consumes_exactly.2 rfl) (ih hp hu)
      have hitem : argItem.Asks (o :: r) := by
        refine Asks.choices [call .string, call .number, call .ident] (run_opener_none ho r) (.call ?_)
        rcases opener_cases ho with rfl | rfl
        · exact .left (hinner (p := .parenClose) rfl)
        · exact .right (run_group_none (by decide) r) (hinner (p := .bracketClose) rfl)
      obtain ⟨t, ht, hskip⟩ := rounds_to_opener ho hb
      exact .second (consumes_blanks.2 rfl) (.first (.maybe (asks_argument ht (hskip ▸ hitem))))

end SelectorSyntax.Bracket
