import SelectorSyntax.Proofs.Bracket.Reading
import SelectorSyntax.Proofs.Grammar.Places
import SelectorSyntax.Proofs.Spelling.Writing

namespace SelectorSyntax.Bracket

open Grammar Grammar.Expression Selector.Spelling Text CharClass

/-- No comment is opened or closed in the text. -/
structure Mute (k : List Char) : Prop where
  slash : '/' ∉ k
  asterisk : '*' ∉ k

variable {c o : Char} {s t u v k x y : List Char} {ns : List Node} {ps qs : List (List Char × List Char)}

/-! Balanced text stays so whatever follows it, unless a comment begins in it that would not have begun. -/

theorem closeComment?_replace_none (h : Blank.closeComment? (s ++ t) = none) (hk : Mute k) :
    Blank.closeComment? (s ++ k) = none := by
  cases hc : Blank.closeComment? (s ++ k) with
  | none => rfl
  | some v =>
      obtain ⟨b, hb, hs⟩ := closeComment_split hc
      -- What closes the comment is not in the text that follows, so it stands before that.
      obtain ⟨z, rfl⟩ : ∃ z, s = b ++ '*' :: '/' :: z := by
        rcases List.append_eq_append_iff.1 hs with ⟨z, -, rfl⟩ | ⟨z, rfl, hz⟩
        · exact absurd (List.mem_append_right z (by simp)) hk.slash
        · rcases z with _ | ⟨c, _ | ⟨d, z⟩⟩
          · rw [List.nil_append] at hz
            exact absurd (by rw [← hz]; simp) hk.slash
          · cases hz
            exact absurd List.mem_cons_self hk.slash
          · cases hz
            exact ⟨z, rfl⟩
      rw [List.append_assoc] at h
      cases h.symm.trans (closeComment?_append hb (z ++ t))

theorem comment?_replace (h : Blank.comment? (s ++ t) = some (u ++ t)) (k : List Char) :
    Blank.comment? (s ++ k) = some (u ++ k) := by
  obtain ⟨w, hs, hw⟩ := Blank.comment?_cut h
  rw [← List.append_assoc] at hs
  obtain rfl := eq_of_append_eq hs
  rw [List.append_assoc]
  exact hw (u ++ k)

theorem comment?_replace_none (hs : s ≠ []) (h : Blank.comment? (s ++ t) = none) (hk : Mute k) :
    Blank.comment? (s ++ k) = none := by
  cases hc : Blank.comment? (s ++ k) with
  | none => rfl
  | some v =>
      unfold Blank.comment? at hc
      split at hc
      next r hr =>
        rcases s with _ | ⟨c, _ | ⟨d, s⟩⟩
        · exact absurd rfl hs
        · cases hr
          exact absurd List.mem_cons_self hk.asterisk
        · cases hr
          cases hc.symm.trans (closeComment?_replace_none h hk)
      next => cases hc

theorem run_string_replace (h : Rule.string.run (s ++ t) = some (u ++ t, ns)) (k : List Char) :
    ∃ ms, Rule.string.run (s ++ k) = some (u ++ k, ms) := by
  obtain ⟨v, hv, hn⟩ := Quoted.run_string_iff_read.1 ⟨ns, h⟩
  obtain ⟨w, hw⟩ := Quoted.read_suffix hv
  obtain rfl : s = w ++ u := (List.append_left_inj t).1 (by rw [← hw, List.append_assoc])
  rw [List.append_assoc] at hv hn ⊢
  rw [Place.between_append] at hn
  exact Quoted.run_string_iff_read.2 ⟨v, Quoted.read_append hv (u ++ k), by rwa [Place.between_append]⟩

theorem unit?_suffix (h : unit? s = some t) : t <:+ s := by
  rcases unit?_cases h with ⟨ns, h⟩ | ⟨c, -, rfl⟩ | h | ⟨c, -, -, rfl⟩
  · exact Rule.lawful_run.suffix h
  · exact ⟨['\\', c], rfl⟩
  · exact Blank.comment?_suffix h
  · exact List.suffix_cons c t

theorem Balanced.suffix (h : Balanced s t ps) : t <:+ s := by
  induction h with
  | nil => exact List.suffix_rfl
  | unit hu _ ih => exact ih.trans (unit?_suffix hu)
  | group _ _ _ _ ihin ih => exact ih.trans ((List.suffix_cons _ _).trans (ihin.trans (List.suffix_cons _ _)))

/-- Of what is left in front of `k`: reading keeps it, and it lets no comment begin that would not begin in front
of `t`. -/
structure Guards (P : List Char → Prop) (t k : List Char) : Prop where
  comment : ∀ ⦃c s⦄, isPlain c = true → P (c :: s) → Blank.comment? (c :: s ++ t) = none →
    Blank.comment? (c :: s ++ k) = none
  rest : ∀ ⦃s u ps⦄, P s → Balanced (s ++ k) (u ++ k) ps → P u
  inside : ∀ ⦃o s⦄, isOpener o = true → P (o :: s) → P s

variable {P : List Char → Prop}

theorem guards_mute (hk : Mute k) : Guards (fun _ => True) t k where
  comment _ s _ _ h := comment?_replace_none (List.cons_ne_nil _ s) h hk
  rest _ _ _ _ _ := trivial
  inside _ _ _ _ := trivial

theorem guards_uncommented (hk : Closing k) : Guards Uncommented t k where
  comment _ _ _ hs _ := comment?_closing hk hs
  rest _ _ _ hs h := hs.suffix (List.suffix_append_self_iff.1 h.suffix)
  inside o s _ hs := hs.suffix (List.suffix_cons o s)

theorem unit?_replace (hP : Guards P t k) (hs : P s) (h : unit? (s ++ t) = some (u ++ t)) :
    unit? (s ++ k) = some (u ++ k) := by
  rcases unit?_cases h with ⟨ns, h⟩ | ⟨c, hc, hx⟩ | h | ⟨c, hc, hcm, hx⟩
  · obtain ⟨ms, hm⟩ := run_string_replace h k
    exact unit?_quoted hm
  · obtain rfl : s = '\\' :: c :: u := eq_of_append_eq hx
    exact unit?_escape hc
  · exact unit?_comment (comment?_replace h k)
  · obtain rfl : s = c :: u := eq_of_append_eq hx
    have hcm := hP.comment hc hs hcm
    rw [List.cons_append] at hcm
    rw [List.cons_append, unit?_plain hc, hcm]
    rfl

theorem Balanced.replace (hP : Guards P t k) (hs : P s) (h : Balanced (s ++ t) (u ++ t) ps) :
    ∃ qs, Balanced (s ++ k) (u ++ k) qs := by
  generalize hx : s ++ t = x at h
  generalize hy : u ++ t = y at h
  induction h generalizing s u with
  | nil =>
      obtain rfl := eq_of_append_eq (hx.trans hy.symm)
      exact ⟨[], .nil⟩
  | unit hu hb ih =>
      obtain ⟨v, rfl⟩ := exists_append_of_suffix (hy ▸ hb.suffix)
      rw [← hx] at hu
      have hu := unit?_replace hP hs hu
      obtain ⟨qs, hq⟩ := ih (hP.rest hs (.of_unit hu)) rfl hy
      exact ⟨qs, .unit hu hq⟩
  | @group o c x z y _ _ ho hc hin hb ihin ih =>
      obtain ⟨v, rfl⟩ := exists_append_of_suffix (hy ▸ hb.suffix)
      obtain ⟨w, rfl⟩ := exists_append_of_suffix (v := c :: v) hin.suffix
      obtain rfl : s = o :: w := eq_of_append_eq hx
      obtain ⟨qs, hq⟩ := ihin (s := w) (u := c :: v) (hP.inside ho hs) rfl rfl
      obtain ⟨qs', hq'⟩ := ih (hP.rest hs (.enclose ho hc hq)) rfl hy
      exact ⟨_, .group ho hc hq hq'⟩

/-! Balanced text up to a closer is what the grammar takes for an argument. -/

theorem AtCloser.closing (h : AtCloser s) : Closing s := by
  obtain ⟨c, o, t, rfl, hc⟩ := h
  rintro d r ⟨⟩
  exact (closer_cases hc).imp And.right And.right

theorem unit?_closing (h : Closing s) : unit? s = none := by
  cases s with
  | nil => rfl
  | cons c r => rcases h c r rfl with rfl | rfl <;> rfl

theorem not_closing_of_opener (ho : isOpener o = true) : ¬ Closing (o :: s) := by
  intro h
  rcases h o s rfl with rfl | rfl <;> cases ho

/-- What is balanced up to some place before a closer or the end is balanced from there on. -/
theorem Balanced.rest (h : Balanced s x ps) (h' : Balanced s y qs) (hy : Closing y) : ∃ rs, Balanced x y rs := by
  induction h generalizing y qs with
  | nil => exact ⟨qs, h'⟩
  | unit hu _ ih =>
      cases h' with
      | nil =>
          rw [unit?_closing hy] at hu
          cases hu
      | unit hu' h' =>
          cases hu.symm.trans hu'
          exact ih h' hy
      | group ho =>
          rw [unit?_opener ho] at hu
          cases hu
  | group ho hc hin _ _ ih =>
      cases h' with
      | nil => exact absurd hy (not_closing_of_opener ho)
      | unit hu =>
          rw [unit?_opener ho] at hu
          cases hu
      | group _ hc' hin' h' =>
          cases hin.closer_unique hin' ⟨_, _, _, rfl, hc⟩ ⟨_, _, _, rfl, hc'⟩
          exact ih h' hy

theorem iterates_of_balanced (h : Balanced s (c :: u) ps) (hc : openerOf? c = some o) :
    ∃ t ns, Iterates (round.run Rule.run) s t ns ∧ Blank.skip t = c :: u := by
  have hat : AtCloser (c :: u) := ⟨c, o, u, rfl, hc⟩
  induction hn : s.length using Nat.strongRecOn generalizing s c o u ps with
  | ind n ih =>
      have hle := (Blank.skip_suffix s).length_le
      obtain ⟨qs, hb⟩ := (balanced_skip s).rest h hat.closing
      -- An item takes something, and the rest is balanced again.
      have hitem (hne : argItem.run Rule.run (Blank.skip s) ≠ none) :
          ∃ t ns, Iterates (round.run Rule.run) s t ns ∧ Blank.skip t = c :: u := by
        obtain ⟨⟨v, ms⟩, hv⟩ := Option.ne_none_iff_exists'.1 hne
        have hlt := run_shorter Rule.lawful_run argItem rfl hv
        obtain ⟨rs, hr⟩ := (balanced_argItem (Blank.settled_skip s).comment hv).rest hb hat.closing
        obtain ⟨ks, hks⟩ := run_round_of_argItem hv
        obtain ⟨t, ns, hi, ht⟩ := ih v.length (by omega) hr hc hat rfl
        exact ⟨t, _, .next hks hi, ht⟩
      generalize hs : Blank.skip s = x at hb hle hitem
      cases hb with
      | nil =>
          have hdone : Done [o] (Blank.skip s) := Or.inr ⟨c, o, u, [], hc, hs, rfl⟩
          exact ⟨s, [], .stop hdone.finished.run_round, hs⟩
      | unit hu => exact hitem (run_argItem_of_unit (hs ▸ Blank.settled_skip s) hu)
      | @group p d r v _ _ _ hp hd hin _ =>
          obtain ⟨t, ns, hi, ht⟩ := ih r.length (by rw [List.length_cons] at hle; omega) hin hd ⟨d, p, v, rfl, hd⟩ rfl
          apply hitem
          intro hnone
          exact run_argGroup_of_iterates hp hd hi ht (run_choices_eq_none.1 hnone (call .argGroup) (by simp))

/-- An argument in parentheses is matched up to the closing one. -/
theorem run_arguments_of_balanced (h : Balanced s (')' :: u) ps) :
    ∃ ms, Rule.arguments.run ('(' :: s) = some (u, [⟨.arguments, '(' :: s, u, ms⟩]) := by
  obtain ⟨t, ns, hi, ht⟩ := iterates_of_balanced h rfl
  obtain ⟨v, ms, hm, hv⟩ := maybe_argument_of_iterates hi
  exact ⟨_, (Rule.run_node rfl).2 ⟨_, (run_group_eq_some rfl rfl).2 ⟨s, v, ms, rfl, hm, hv.trans ht, rfl⟩, rfl⟩⟩

theorem balanced_arguments (h : (call .arguments).Consumes s t) :
    ∃ x ps, s = '(' :: x ∧ Balanced x (')' :: t) ps := by
  obtain ⟨ns, h⟩ := h
  obtain ⟨ms, hm, -⟩ := (Rule.run_node rfl).1 h
  obtain ⟨x, ks, ls, hx, hv, -⟩ := run_seq_eq_some.1 hm
  have hcalls : CallsPaired (body .arguments) s := callsPaired rfl s
  obtain ⟨hb, -⟩ := (closes_group rfl rfl).balanced (fun q y hq => hcalls q y (.second hx hq)) hv
  exact ⟨x, _, (run_exactly_eq_some.1 hx).1, hb⟩

/-- Arguments are taken up to the same parenthesis if no comment changes what is inside. -/
theorem consumes_arguments_replace (hP : Guards P u k) (hs : P s) (h : (call .arguments).Consumes (s ++ u) (v ++ u)) :
    (call .arguments).Consumes (s ++ k) (v ++ k) := by
  obtain ⟨x, ps, hopen, hb⟩ := balanced_arguments h
  obtain ⟨x, rfl⟩ := exists_append_of_suffix (v := ')' :: v) hb.suffix
  obtain rfl : s = '(' :: x := eq_of_append_eq hopen
  obtain ⟨qs, hq⟩ := Balanced.replace (u := ')' :: v) hP (hP.inside rfl hs) hb
  obtain ⟨ks, hrun⟩ := run_arguments_of_balanced hq
  exact ⟨_, hrun⟩

theorem lasting_of_mute (hk : Mute k) (ns : List Node) : Lasting u k ns := by
  intro n _ hn hr s v hs hv
  have hrun := hn.2
  rw [hr, hs, hv] at hrun
  exact consumes_arguments_replace (guards_mute hk) trivial ⟨_, hrun⟩

end SelectorSyntax.Bracket
