import SelectorSyntax.Proofs.Spelling.Tokens

namespace SelectorSyntax.Selector.Spelling

open Grammar Expression Text OfNodes CharClass

variable {p : Char → Bool} {s t w : List Char} {ns : List Node}

theorem star_char (h : (star (char p)).run Rule.run s = some (t, ns)) :
    ∃ w, s = w ++ t ∧ ∀ c ∈ w, p c = true := by
  have hi : Iterates ((char p).run Rule.run) s t ns := (run_star_eq_some Rule.lawful_run rfl).1 h
  clear h
  induction hi with
  | stop => exact ⟨[], rfl, fun c hc => absurd hc List.not_mem_nil⟩
  | next hs _ ih =>
      obtain ⟨c, hc, rfl, -⟩ := run_char_eq_some.1 hs
      obtain ⟨w, rfl, hw⟩ := ih
      refine ⟨c :: w, rfl, fun d hd => ?_⟩
      rcases List.mem_cons.1 hd with rfl | hd
      · exact hc
      · exact hw d hd

theorem plus_char (h : (plus (char p)).run Rule.run s = some (t, ns)) :
    ∃ w, s = w ++ t ∧ w ≠ [] ∧ ∀ c ∈ w, p c = true := by
  obtain ⟨u, ms, ks, hr, hs, -⟩ := run_seq_eq_some.1 h
  obtain ⟨c, hc, rfl, -⟩ := run_char_eq_some.1 hr
  obtain ⟨w, rfl, hw⟩ := star_char hs
  refine ⟨c :: w, rfl, List.cons_ne_nil c w, fun d hd => ?_⟩
  rcases List.mem_cons.1 hd with rfl | hd
  · exact hc
  · exact hw d hd

theorem run_sign (h : sign.run Rule.run s = some (t, ns)) : ∃ c, Sign [c] ∧ s = c :: t := by
  obtain ⟨c, hc, rfl, -⟩ := run_char_eq_some.1 h
  simp only [List.mem_cons, List.not_mem_nil, or_false, decide_eq_true_eq] at hc
  rcases hc with rfl | rfl
  · exact ⟨_, .plus, rfl⟩
  · exact ⟨_, .minus, rfl⟩

theorem maybe_sign (h : (maybe sign).run Rule.run s = some (t, ns)) : ∃ g, Sign g ∧ s = g ++ t := by
  rcases run_maybe_eq_some.1 h with h | ⟨-, rfl, -⟩
  · obtain ⟨c, hc, rfl⟩ := run_sign h
    exact ⟨[c], hc, rfl⟩
  · exact ⟨[], .none, rfl⟩

theorem maybe_nthSpace (h : (maybe nthSpace).run Rule.run s = some (t, ns)) :
    ∃ w, s = w ++ t ∧ ∀ c ∈ w, isWhitespace c = true := by
  rcases run_maybe_eq_some.1 h with h | ⟨-, rfl, -⟩
  · obtain ⟨w, hs, -, hw⟩ := plus_char h
    exact ⟨w, hs, hw⟩
  · exact ⟨[], rfl, fun c hc => absurd hc List.not_mem_nil⟩

theorem run_letters (cs : List Char) :
    (seqs (cs.map fun c => char (sameLetter c))).run Rule.run s = some (t, ns) →
      ∃ w, s = w ++ t ∧ AnPlusB.foldCase w = AnPlusB.foldCase cs := by
  induction cs generalizing s ns with
  | nil =>
      intro h
      cases h
      exact ⟨[], rfl, rfl⟩
  | cons c cs ih =>
      have hc {u : List Char} {ms : List Node} (h : (char (sameLetter c)).run Rule.run s = some (u, ms)) :
          ∃ d, s = d :: u ∧ d.toLower = c.toLower := by
        obtain ⟨d, hd, rfl, -⟩ := run_char_eq_some.1 h
        exact ⟨d, rfl, (of_decide_eq_true hd).symm⟩
      intro h
      cases cs with
      | nil =>
          obtain ⟨d, rfl, hd⟩ := hc h
          exact ⟨[d], rfl, by simp [AnPlusB.foldCase, hd]⟩
      | cons b cs =>
          obtain ⟨u, ms, ks, hu, hv, -⟩ := run_seq_eq_some.1 h
          obtain ⟨d, rfl, hd⟩ := hc hu
          obtain ⟨w, rfl, hw⟩ := ih hv
          refine ⟨d :: w, rfl, ?_⟩
          rw [AnPlusB.foldCase, List.map_cons, hd]
          exact congrArg _ hw

theorem run_caseless {a : String} (h : (caseless a).run Rule.run s = some (t, ns)) :
    ∃ w, s = w ++ t ∧ AnPlusB.foldCase w = AnPlusB.foldCase a.toList := run_letters a.toList h

theorem number_of_run (h : Rule.number.run s = some (t, ns)) (hs : s = w ++ t) : Number w := by
  obtain ⟨ms, hm, -⟩ := (Rule.run_node rfl).1 h
  obtain ⟨s₁, _, _, h₁, hm, -⟩ := run_seq_eq_some.1 hm
  obtain ⟨s₂, _, _, h₂, h₃, -⟩ := run_seq_eq_some.1 hm
  have hi : Iterates (nmchar.run Rule.run) s₂ t _ := (run_star_eq_some Rule.lawful_run rfl).1 h₃
  obtain ⟨u, rfl⟩ := hi.suffix fun h => run_suffix Rule.lawful_run nmchar h
  obtain ⟨v, hv, -⟩ := Identifier.exists_readTail hi rfl
  obtain ⟨g, hg, rfl⟩ := maybe_sign h₁
  rcases run_choice_eq_some.1 h₂ with h₂ | ⟨-, h₂⟩
  · obtain ⟨s₃, _, _, h₄, h₅, -⟩ := run_seq_eq_some.1 h₂
    obtain ⟨s₄, _, _, h₅, h₆, -⟩ := run_seq_eq_some.1 h₅
    obtain ⟨es, rfl, hne, hes⟩ := plus_char h₆
    obtain ⟨rfl, -⟩ := run_exactly_eq_some.1 h₅
    obtain ⟨ds, rfl, hds⟩ := star_char h₄
    obtain rfl : w = g ++ (ds ++ '.' :: (es ++ u)) := (List.append_left_inj t).1 (by simpa using hs.symm)
    exact .decimal hg hds hes hne hv
  · obtain ⟨ds, rfl, hne, hds⟩ := plus_char h₂
    obtain rfl : w = g ++ (ds ++ u) := (List.append_left_inj t).1 (by simpa using hs.symm)
    exact .integer hg hds hne hv

theorem nth_keyword {a : String} (ha : AnPlusB.foldCase a.toList ∈ ["odd".toList, "even".toList])
    (h : (caseless a).run Rule.run s = some (t, ns)) (hs : s = w ++ t) : Nth w := by
  obtain ⟨x, hx, hf⟩ := run_caseless h
  obtain rfl : w = x := List.append_cancel_right (hs.symm.trans hx)
  exact .keyword (hf ▸ ha)

theorem nth_of_run (h : Rule.nthValue.run s = some (t, ns)) (hs : s = w ++ t) : Nth w := by
  obtain ⟨ms, hm, -⟩ := (Rule.run_node rfl).1 h
  rcases run_choice_eq_some.1 hm with hm | ⟨-, hm⟩
  · obtain ⟨u, _, _, h₁, h₂, -⟩ := run_seq_eq_some.1 hm
    obtain ⟨-, rfl, -⟩ := run_absent_eq_some.1 h₂
    rcases run_choice_eq_some.1 h₁ with h₁ | ⟨-, h₁⟩
    · exact nth_keyword (by decide) h₁ hs
    · exact nth_keyword (by decide) h₁ hs
  · rcases run_choice_eq_some.1 hm with hm | ⟨-, hm⟩
    · obtain ⟨s₁, _, _, h₁, hm, -⟩ := run_seq_eq_some.1 hm
      obtain ⟨s₂, _, _, h₂, hm, -⟩ := run_seq_eq_some.1 hm
      obtain ⟨s₃, _, _, h₃, hm, -⟩ := run_seq_eq_some.1 hm
      obtain ⟨s₄, _, _, h₄, h₅, -⟩ := run_seq_eq_some.1 hm
      obtain ⟨-, rfl, -⟩ := run_absent_eq_some.1 h₅
      obtain ⟨g, hg, rfl⟩ := maybe_sign h₁
      obtain ⟨ds, rfl, hds⟩ := star_char h₂
      obtain ⟨n, hn, rfl, -⟩ := run_char_eq_some.1 h₃
      have hn : n.toLower = 'n' := (of_decide_eq_true hn).symm
      rcases run_maybe_eq_some.1 h₄ with h₄ | ⟨-, rfl, -⟩
      · obtain ⟨s₅, _, _, h₆, h₄, -⟩ := run_seq_eq_some.1 h₄
        obtain ⟨s₆, _, _, h₇, h₄, -⟩ := run_seq_eq_some.1 h₄
        obtain ⟨s₇, _, _, h₈, h₉, -⟩ := run_seq_eq_some.1 h₄
        obtain ⟨es, rfl, hne, hes⟩ := plus_char h₉
        obtain ⟨y, rfl, hy⟩ := maybe_nthSpace h₈
        obtain ⟨c, hc, rfl⟩ := run_sign h₇
        obtain ⟨x, rfl, hx⟩ := maybe_nthSpace h₆
        obtain rfl : w = g ++ (ds ++ n :: (x ++ c :: (y ++ es))) :=
          (List.append_left_inj t).1 (by simpa using hs.symm)
        exact .shifted hg hds hn hx hc hy hes hne
      · obtain rfl : w = g ++ (ds ++ [n]) := (List.append_left_inj t).1 (by simpa using hs.symm)
        exact .step hg hds hn
    · obtain ⟨s₁, _, _, h₁, hm, -⟩ := run_seq_eq_some.1 hm
      obtain ⟨s₂, _, _, h₂, h₃, -⟩ := run_seq_eq_some.1 hm
      obtain ⟨-, rfl, -⟩ := run_absent_eq_some.1 h₃
      obtain ⟨g, hg, rfl⟩ := maybe_sign h₁
      obtain ⟨ds, rfl, hne, hds⟩ := plus_char h₂
      obtain rfl : w = g ++ ds := (List.append_left_inj t).1 (by simpa using hs.symm)
      exact .integer hg hds hne

end SelectorSyntax.Selector.Spelling
