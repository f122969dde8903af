import SelectorSyntax.Proofs.Cut.Brackets

namespace SelectorSyntax.Grammar

variable {s t : List Char} {ns : List Node}

theorem Ordered.suffix (h : Ordered s t ns) : t <:+ s := by
  induction h with
  | nil h => exact h
  | cons hs hn _ ih => exact ih.trans (hn.trans hs)

mutual

/-- The nodes inside a match are between its two places. -/
theorem Node.IsMatch.encloses : ∀ (n : Node), n.IsMatch → ∀ m ∈ n.family, m.start <:+ n.start ∧ n.stop <:+ m.stop
  | ⟨r, s, t, ns⟩, h, m, hm => by
      rw [Node.family] at hm
      rcases List.mem_cons.1 hm with rfl | hm
      · exact ⟨List.suffix_rfl, List.suffix_rfl⟩
      · exact Ordered.encloses ns s t h.ordered (fun k hk => (h.child hk).2) m hm

theorem Ordered.encloses : ∀ (ns : List Node) (s t : List Char), Ordered s t ns → (∀ n ∈ ns, n.IsMatch) →
    ∀ m ∈ Node.familyOfAll ns, m.start <:+ s ∧ t <:+ m.stop
  | [], _, _, _, _, m, hm => by cases hm
  | n :: ns, s, t, ho, h, m, hm => by
      rw [Node.familyOfAll] at hm
      cases ho with
      | cons hs hn hrest =>
          rcases List.mem_append.1 hm with hm | hm
          · obtain ⟨hstart, hstop⟩ := Node.IsMatch.encloses n (h n List.mem_cons_self) m hm
            exact ⟨hstart.trans hs, hrest.suffix.trans hstop⟩
          · obtain ⟨hstart, hstop⟩ := Ordered.encloses ns n.stop t hrest (fun k hk => h k (List.mem_cons_of_mem n hk)) m hm
            exact ⟨hstart.trans (hn.trans hs), hstop⟩

end

end SelectorSyntax.Grammar

namespace SelectorSyntax.Bracket

open Relation Grammar Grammar.Expression Selector.Spelling Text CharClass

variable {e f : Expression} {r : Rule} {s t u v x y z : List Char} {ns ms : List Node}

/-- The cut is between the brackets of some node. -/
def Straddled (u : List Char) (ns : List Node) : Prop :=
  ∃ n ∈ Node.familyOfAll ns, n.rule.isBracketed = true ∧ Within u n.start n.stop

/-- Wherever the expression is matched with brackets around the cut, it gets stuck there. -/
def Breaks (u : List Char) (e : Expression) : Prop :=
  ∀ ⦃x t ns⦄, e.run Rule.run (x ++ u) = some (t, ns) → Straddled u ns → Uncut u ns → Unsplit u (x ++ u) → Stuck e u x

theorem straddled_append : Straddled u (ns ++ ms) ↔ Straddled u ns ∨ Straddled u ms := by
  simp only [Straddled, Node.mem_familyOfAll_append, or_and_right, exists_or]

theorem not_straddled_nil : ¬ Straddled u [] := by
  rintro ⟨n, hn, -⟩
  cases hn

theorem straddled_node (hr : r.isBracketed = false) (h : Straddled u [⟨r, s, t, ns⟩]) : Straddled u ns := by
  obtain ⟨n, hn, hbr, hw⟩ := h
  rw [Node.familyOfAll, Node.family, List.cons_append, List.mem_cons] at hn
  rcases hn with rfl | hn
  · cases hr.symm.trans hbr
  · exact ⟨n, by simpa [Node.familyOfAll] using hn, hbr, hw⟩

/-- What is matched with brackets around the cut goes from in front of it to behind it. -/
theorem Straddled.within (h : Straddled u ns) (he : ∀ r ∈ e.callees, r.isSilent = false)
    (hrun : e.run Rule.run s = some (t, ns)) : Within u s t := by
  obtain ⟨n, hn, -, hstop, hstart⟩ := h
  obtain ⟨hs, ht⟩ := Ordered.encloses ns s t (ordered_of_run he hrun) (fun m hm => (mem_of_run he hrun hm).2) n hn
  exact ⟨Nat.lt_of_le_of_lt ht.length_le hstop, Nat.lt_of_lt_of_le hstart hs.length_le⟩

theorem exists_append_of_lt (h : t <:+ x ++ u) (hu : u.length < t.length) : ∃ y, t = y ++ u ∧ y ≠ [] := by
  obtain ⟨y, rfl⟩ := exists_append_of_length h (Nat.le_of_lt hu)
  refine ⟨y, rfl, ?_⟩
  rintro rfl
  exact Nat.lt_irrefl _ hu

/-! Expressions without brackets. -/

/-- What the expression matches has no brackets among its nodes. -/
def Unbracketed (e : Expression) : Prop := ∀ ⦃u s t ns⦄, e.run Rule.run s = some (t, ns) → ¬ Straddled u ns

theorem unbracketed_callFree (he : e.callFree = true) : Unbracketed e := by
  intro u s t ns h
  rw [run_callFree he h]
  exact not_straddled_nil

theorem Unbracketed.call (hs : r.isSilent = false) (hr : r.isBracketed = false) (h : Unbracketed (body r)) :
    Unbracketed (call r) := by
  intro u s t ns hrun hstr
  obtain ⟨ms, hm, rfl⟩ := (Rule.run_node hs).1 hrun
  have hin := straddled_node hr hstr
  split at hin
  next => exact not_straddled_nil hin
  next => exact h hm hin

theorem Unbracketed.seq (he : Unbracketed e) (hf : Unbracketed f) : Unbracketed (seq e f) := by
  intro u s t ns h hstr
  obtain ⟨v, ms, ks, hv, ht, rfl⟩ := run_seq_eq_some.1 h
  exact (straddled_append.1 hstr).elim (he hv) (hf ht)

theorem Unbracketed.choice (he : Unbracketed e) (hf : Unbracketed f) : Unbracketed (choice e f) := by
  intro u s t ns h
  rcases run_choice_eq_some.1 h with h | ⟨-, h⟩
  · exact he h
  · exact hf h

theorem Unbracketed.breaks (he : Unbracketed e) : Breaks u e := fun _ _ _ h hstr => absurd hstr (he h)

theorem unbracketed_leaf (hs : r.isSilent = false) (hr : r.isBracketed = false) (hb : (body r).callFree = true) :
    Unbracketed (call r) := .call hs hr (unbracketed_callFree hb)

/-! Expressions that close what they open. -/

def Level (e : Expression) : Prop := ∀ ⦃s t⦄, e.Consumes s t → ∃ ps, Balanced s t ps

theorem level_call (hs : r.isSilent = false) (hcl : isCloser r = false) (ha : ∀ s, Admits r s) : Level (call r) :=
  fun s _ ⟨_, h⟩ => ⟨_, (paired_of_run r s (ha s) hcl hs h).balanced⟩

theorem level_flat (he : Flat e) : Level e := fun _ _ ⟨_, h⟩ => ⟨[], (he h).balanced⟩

theorem Level.seq (he : Level e) (hf : Level f) : Level (seq e f) := by
  intro s t h
  obtain ⟨v, hv, ht⟩ := consumes_seq.1 h
  obtain ⟨ps, hps⟩ := he hv
  obtain ⟨qs, hqs⟩ := hf ht
  exact ⟨_, hps.trans hqs⟩

/-! Steps. -/

theorem Breaks.call (hs : r.isSilent = false) (hr : r.isBracketed = false) (ht : r.isToken = false)
    (h : Breaks u (body r)) : Breaks u (call r) := by
  intro x t ns hrun hstr hns hsplit
  obtain ⟨ms, hm, rfl⟩ := (Rule.run_node hs).1 hrun
  rw [ht, if_neg Bool.false_ne_true] at hstr hns
  obtain ⟨hopen, ha⟩ := h hm (straddled_node hr hstr) hns.node.2 hsplit
  exact ⟨hopen, ha.call⟩

/-- The first part ends in front of the cut without what is behind it, and the second one gets stuck. -/
theorem Breaks.seq (he : Breaks u e) (hf : Breaks u f) (hcalls : ∀ r ∈ f.callees, r.isSilent = false)
    (hlevel : Level e)
    (hk : ∀ ⦃y t ns⦄, y ≠ [] → f.run Rule.run (y ++ u) = some (t, ns) → Straddled u ns → Unsplit u (y ++ u) →
      e.Keeps u [] y) : Breaks u (seq e f) := by
  intro x t ns h hstr hns hs
  obtain ⟨v, ms, ks, hv, hrest, rfl⟩ := run_seq_eq_some.1 h
  obtain ⟨hms, hks⟩ := uncut_append.1 hns
  rcases straddled_append.1 hstr with hstr | hstr
  · obtain ⟨hopen, ha⟩ := he hv hstr hms hs
    exact ⟨hopen, ha.first⟩
  · obtain ⟨y, rfl, hy⟩ := exists_append_of_lt (run_suffix Rule.lawful_run e hv) (hstr.within hcalls hrest).2
    obtain ⟨ps, hb⟩ := hlevel ⟨ms, hv⟩
    have hclear := hs.visits hb.visits
    obtain ⟨⟨cs, hcs, hopen⟩, ha⟩ := hf hrest hstr hks hclear
    exact ⟨⟨cs, hcs, hopen.after hb⟩, .second (keeps_cut (hk hy hrest hstr hclear) ⟨ms, hv⟩) ha⟩

theorem Breaks.blanks (hf : Breaks u f) (hcalls : ∀ r ∈ f.callees, r.isSilent = false) (ht : f.takes = true)
    (hb : ('/' :: whitespace).all (fun c => !f.begins c (Rule.begins c)) = true) :
    Breaks u (Expression.seq (maybe ws) f) := by
  refine .seq (unbracketed_callFree rfl).breaks hf hcalls (level_flat flat_ws.maybe) fun y t ns _ h _ _ => keeps_blanks ?_
  rw [List.append_nil]
  exact settled_cut (settled_of_consumes ht hb ⟨ns, h⟩)

theorem exists_round (he : e.takes = true) (h : (star e).run Rule.run s = some (t, ns)) (hstr : Straddled u ns) :
    ∃ v, e.Consumes s v := by
  cases (run_star_eq_some Rule.lawful_run he).1 h with
  | stop => exact absurd hstr not_straddled_nil
  | next hround => exact ⟨_, _, hround⟩

theorem Breaks.star (he : Breaks u e) (ht : e.takes = true) (hcalls : ∀ r ∈ e.callees, r.isSilent = false)
    (hlevel : Level e)
    (hk : ∀ ⦃y t⦄, e.Consumes (y ++ u) t → Unsplit u (y ++ u) → e.Keeps u [] y) : Breaks u (star e) := by
  intro x t ns h hstr hns hs
  have hi := (run_star_eq_some Rule.lawful_run ht).1 h
  clear h
  generalize hxu : x ++ u = s at hi
  induction hi generalizing x with
  | stop => exact absurd hstr not_straddled_nil
  | @next s v t ms ks hv hi ih =>
      subst hxu
      obtain ⟨hms, hks⟩ := uncut_append.1 hns
      rcases straddled_append.1 hstr with hstr | hstr
      · obtain ⟨hopen, ha⟩ := he hv hstr hms hs
        exact ⟨hopen, .round .refl ha⟩
      · have hrest := (run_star_eq_some Rule.lawful_run ht).2 hi
        have hin := (hstr.within (e := Expression.star e) hcalls hrest).2
        obtain ⟨y, rfl, -⟩ := exists_append_of_lt (run_suffix Rule.lawful_run e hv) hin
        obtain ⟨ps, hb⟩ := hlevel ⟨ms, hv⟩
        have hclear := hs.visits hb.visits
        obtain ⟨⟨cs, hcs, hopen⟩, ha⟩ := ih hstr hks hclear rfl
        obtain ⟨w, hw⟩ := exists_round ht hrest hstr
        obtain ⟨p, v, q, hp, hq⟩ := ha
        obtain ⟨ms', hkeep⟩ := keeps_cut (hk hw hclear) ⟨ms, hv⟩
        exact ⟨⟨cs, hcs, hopen.after hb⟩, p, v, q, .again hkeep hp, hq⟩

theorem Breaks.choice (he : Breaks u e) (hf : Breaks u f) (hcalls : ∀ r ∈ f.callees, r.isSilent = false)
    (hn : ∀ ⦃x t⦄, x ≠ [] → f.Consumes (x ++ u) t → e.run Rule.run x = none) : Breaks u (choice e f) := by
  intro x t ns h hstr hns hs
  rcases run_choice_eq_some.1 h with h | ⟨-, h⟩
  · obtain ⟨hopen, ha⟩ := he h hstr hns hs
    exact ⟨hopen, ha.left⟩
  · obtain ⟨y, hy, hne⟩ := exists_append_of_lt (List.suffix_rfl (l := x ++ u)) (hstr.within hcalls h).2
    obtain rfl := eq_of_append_eq hy
    obtain ⟨hopen, ha⟩ := hf h hstr hns hs
    exact ⟨hopen, .right (hn hne ⟨ns, h⟩) ha⟩

theorem Inner.breaks (hf : Inner f u) {o c : Char} (hb : body r = .seq (exactly o) f) (ho : isOpener o = true)
    (hc : openerOf? c = some o) (hs : r.isSilent = false) (ht : r.isToken = false) : Breaks u (Expression.call r) := by
  intro x t ns h hstr hns hsplit
  have hw := hstr.within (e := Expression.call r) (fun q hq => List.mem_singleton.1 hq ▸ hs) h
  obtain ⟨y, hy, hne⟩ := exists_append_of_lt (List.suffix_rfl (l := x ++ u)) hw.2
  obtain rfl := eq_of_append_eq hy
  exact hf.stuck hb ho hc hs ht hne h hw.1 hns hsplit

end SelectorSyntax.Bracket
