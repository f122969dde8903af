import SelectorSyntax.Proofs.Composition.Arguments
import SelectorSyntax.Proofs.Spelling.Fragments

namespace SelectorSyntax.Selector.Spelling

open Grammar Expression Text OfNodes SelectorSyntax.Bracket

/-! Where the items of a text stand in it. -/

/-- The rules for tokens, in the order in which they are tried. -/
def tokenRules : List Rule := [.string, .number, .ident, .argDelim]

/-- Of the rules for tokens this is the first that matches here, and it matches up to there. -/
def Tokenizes (r : Rule) (s t : List Char) : Prop :=
  tokenRules.find? (fun q => (q.run s).isSome) = some r ∧ ∃ ns, r.run s = some (t, ns)

mutual

/-- An item from one place to a later one. -/
inductive ItemAt : Parameter → List Char → List Char → Prop
  | token {r w t} : Tokenizes r (w ++ t) t → Blank.Settled (w ++ t) →
      ItemAt (.text (String.ofList w)) (w ++ t) t
  | group {o c ps b₁ s b₂ t} : (o, c) ∈ [('(', ')'), ('[', ']')] → Blanks b₁ → ItemsAt ps s (b₂ ++ c :: t) → Blanks b₂ →
      ItemAt (.list (.text (String.ofList [o]) :: (ps ++ [.text (String.ofList [c])]))) (o :: (b₁ ++ s)) t

/-- What stands between brackets, without the blanks inside them. -/
inductive ItemsAt : List Parameter → List Char → List Char → Prop
  | nil {s} : ItemsAt [] s s
  | cons {p ps s u t} : ItemAt p s u → MoreAt ps u t → ItemsAt (p :: ps) s t

/-- What follows the first item. -/
inductive MoreAt : List Parameter → List Char → List Char → Prop
  | nil {s} : MoreAt [] s s
  | adjacent {p ps s u t} : ItemAt p s u → MoreAt ps u t → MoreAt (p :: ps) s t
  | spaced {p ps b s u t} : Blanks b → b ≠ [] → ItemAt p s u → MoreAt ps u t → MoreAt (.text " " :: p :: ps) (b ++ s) t

end

variable {r q : Rule} {o c : Char} {s t u v w : List Char} {n : Node} {ns ms : List Node} {p : Parameter} {ps : List Parameter}

/-! Tokens are the items that are no groups. -/

theorem Tokenizes.mem (h : Tokenizes r s t) : r ∈ tokenRules := List.mem_of_find?_eq_some h.1

theorem Tokenizes.cases (h : Tokenizes r s t) : r = .string ∨ r = .number ∨ r = .ident ∨ r = .argDelim := by
  simpa [tokenRules] using h.mem

theorem ne_of_run_none {x : List Char × List Node} (hr : r.run s = some x) (hq : q.run s = none) : r ≠ q := by
  rintro rfl
  cases hr.symm.trans hq

/-- The rules before the first that matches do not match. -/
theorem tokenizes_iff : Tokenizes r s t ↔ (∃ ns, r.run s = some (t, ns)) ∧ (r = .string ∨ Rule.string.run s = none ∧
    (r = .number ∨ Rule.number.run s = none ∧ (r = .ident ∨ Rule.ident.run s = none ∧ r = .argDelim))) := by
  rw [Tokenizes, and_comm]
  refine and_congr_right fun ⟨ns, hr⟩ => ?_
  simp only [tokenRules, List.find?_cons, List.find?_nil]
  cases hs : Rule.string.run s with
  | some x => simp [eq_comm]
  | none =>
  have hns := ne_of_run_none hr hs
  cases hn : Rule.number.run s with
  | some x => simp [hns, eq_comm]
  | none =>
  have hnn := ne_of_run_none hr hn
  cases hi : Rule.ident.run s with
  | some x => simp [hns, hnn, eq_comm]
  | none =>
  have hni := ne_of_run_none hr hi
  cases hd : Rule.argDelim.run s with
  | some x => simp [hns, hnn, hni, eq_comm]
  | none => simp [hns, hnn, hni, ne_of_run_none hr hd]

theorem Tokenizes.run (h : Tokenizes r s t) : r.run s = some (t, [⟨r, s, t, []⟩]) := by
  obtain ⟨ns, hns⟩ := h.2
  obtain ⟨-, -, rfl, -⟩ := run_token (isToken_of_mem h.mem) hns
  exact hns

theorem run_argItem_of_tokenizes (h : Tokenizes r s t) : argItem.run Rule.run s = some (t, [⟨r, s, t, []⟩]) := by
  have hrun := h.run
  have hof (es : List Expression) {fs : List Expression} (hes : ∀ e ∈ es, e.run Rule.run s = none)
      (hargItem : argItem = choices (es ++ call r :: fs)) : argItem.run Rule.run s = some (t, [⟨r, s, t, []⟩]) := by
    rw [hargItem]
    exact run_choices_of es hes hrun
  rcases (tokenizes_iff.1 h).2 with rfl | ⟨hs, rfl | ⟨hn, rfl | ⟨hi, rfl⟩⟩⟩
  · exact hof [] nofun rfl
  · exact hof [call .string] (by simpa [run_call] using hs) rfl
  · exact hof [call .string, call .number] (by simpa [run_call] using ⟨hs, hn⟩) rfl
  · obtain ⟨c, hc, rfl, -⟩ := run_argDelim_eq_some.1 hrun
    have hg := run_argGroup_none (not_bracket hc) t
    exact hof [call .string, call .number, call .ident, call .argGroup] (by simpa [run_call] using ⟨hs, hn, hi, hg⟩) rfl

theorem argItem_cases (h : argItem.run Rule.run s = some (t, ns)) :
    (∃ r, Tokenizes r s t ∧ ns = [⟨r, s, t, []⟩]) ∨ Rule.argGroup.run s = some (t, ns) := by
  have htoken {r : Rule} (hr : r.isToken = true) (hrun : r.run s = some (t, ns))
      (hfirst : r = .string ∨ Rule.string.run s = none ∧
        (r = .number ∨ Rule.number.run s = none ∧ (r = .ident ∨ Rule.ident.run s = none ∧ r = .argDelim))) :
      (∃ r, Tokenizes r s t ∧ ns = [⟨r, s, t, []⟩]) ∨ Rule.argGroup.run s = some (t, ns) := by
    obtain ⟨-, -, hns, -⟩ := run_token hr hrun
    exact Or.inl ⟨r, tokenizes_iff.2 ⟨⟨ns, hrun⟩, hfirst⟩, hns⟩
  rcases run_choice_eq_some.1 h with h | ⟨hs, h⟩
  · exact htoken rfl h (Or.inl rfl)
  rcases run_choice_eq_some.1 h with h | ⟨hn, h⟩
  · exact htoken rfl h (Or.inr ⟨hs, Or.inl rfl⟩)
  rcases run_choice_eq_some.1 h with h | ⟨hi, h⟩
  · exact htoken rfl h (Or.inr ⟨hs, Or.inr ⟨hn, Or.inl rfl⟩⟩)
  rcases run_choice_eq_some.1 h with h | ⟨-, h⟩
  · exact Or.inr h
  · exact htoken rfl h (Or.inr ⟨hs, Or.inr ⟨hn, Or.inr ⟨hi, rfl⟩⟩⟩)

/-! What is matched stands where it is matched. -/

def ArgumentAt (s : List Char) : Prop :=
  ∀ ⦃t ns ps⦄, (maybe (call .argument)).run Rule.run s = some (t, ns) → ReadAs ns ps → Blank.Settled s → ItemsAt ps s t

theorem itemAt_group (hoc : (o, c) ∈ [('(', ')'), ('[', ']')]) (hb : body q = exactly c)
    (hq : q ∈ [.parenClose, .bracketClose]) (ih : ∀ v, v.length < s.length → ArgumentAt v)
    (h : (group o q).run Rule.run s = some (t, ns)) (hps : groupItems ns = .ok ps) :
    ItemAt (.list (.text (String.ofList [o]) :: ps)) s t := by
  obtain ⟨s', u, ms, rfl, hm, hu, rfl⟩ := (run_group_eq_some hb (isSilent_of_closer hq)).1 h
  obtain ⟨qs, -, hread, -⟩ := readAs_of_groupItems hps hm
  have hclose : Place.between (c :: t) t = [c] := Place.between_append [c] t
  rw [groupItems_closed hread hq, hclose] at hps
  cases hps
  have hlt : (Blank.skip s').length < (o :: s').length := Nat.lt_succ_of_le (Blank.skip_suffix s').length_le
  have hitems := ih _ hlt hm hread (Blank.settled_skip s')
  obtain ⟨b₁, hb₁, hs'⟩ := blanks_skip s'
  obtain ⟨b₂, hb₂, hu'⟩ := blanks_skip u
  rw [hu] at hu'
  rw [hu'] at hitems
  rw [hs']
  exact .group hoc hb₁ hitems hb₂

theorem itemAt_of_run (ih : ∀ v, v.length < s.length → ArgumentAt v) (hs : Blank.Settled s)
    (h : argItem.run Rule.run s = some (t, [n])) (hp : item n = .ok p) : ItemAt p s t := by
  rcases argItem_cases h with ⟨r, hr, hn⟩ | h
  · obtain rfl : n = ⟨r, s, t, []⟩ := (List.cons.inj hn).1
    obtain ⟨w, rfl, -, htext⟩ := run_token (isToken_of_mem hr.mem) hr.run
    rcases item_eq_ok hp with ⟨-, rfl⟩ | ⟨hr', -⟩ | ⟨hr', -⟩
    · rw [htext]
      exact .token hr hs
    · obtain rfl : r = .argSpace := hr'
      cases isToken_of_mem hr.mem
    · obtain rfl : r = .argGroup := hr'
      cases isToken_of_mem hr.mem
  · obtain ⟨ms, hm, hn⟩ := (Rule.run_node rfl).1 h
    obtain rfl : n = ⟨.argGroup, s, t, ms⟩ := (List.cons.inj hn).1
    obtain ⟨hr, -⟩ | ⟨hr, -⟩ | ⟨-, ps, hps, rfl⟩ := item_eq_ok hp
    · simp at hr
    · cases hr
    · have hopener {o : Char} {q : Rule} (hm : (group o q).run Rule.run s = some (t, ms)) : s.take 1 = [o] := by
        obtain ⟨_, _, _, h₁, _, _⟩ := run_seq_eq_some.1 hm
        rw [(run_exactly_eq_some.1 h₁).1]
        rfl
      rcases run_choice_eq_some.1 hm with hm | ⟨-, hm⟩
      · have hgroup := itemAt_group (by simp) rfl (by simp) ih hm hps
        rwa [← hopener hm] at hgroup
      · have hgroup := itemAt_group (by simp) rfl (by simp) ih hm hps
        rwa [← hopener hm] at hgroup

theorem moreAt_of_iterates (ih : ∀ v, v.length < s.length → ArgumentAt v) (h : Iterates (round.run Rule.run) s t ns)
    (hps : items ns = .ok ps) : MoreAt ps s t := by
  induction h generalizing ps with
  | stop =>
      cases hps
      exact .nil
  | @next s u t ns ms hs hi ihi =>
      obtain ⟨v, ks, ls, hv, hitem, rfl⟩ := run_seq_eq_some.1 hs
      have hlt := (run_suffix Rule.lawful_run (maybe (call .argSpace)) hv).length_le
      have hshort := run_shorter Rule.lawful_run argItem rfl hitem
      obtain ⟨n, rfl⟩ := single_of_argItem hitem
      have hsettled : Blank.Settled v → ∀ p, item n = .ok p → ItemAt p v u := fun hv p hp =>
        itemAt_of_run (fun w hw => ih w (by omega)) hv hitem hp
      have hmore : ∀ qs, items ms = .ok qs → MoreAt qs u t := fun qs hqs => ihi (fun w hw => ih w (by omega)) hqs
      rcases run_maybe_eq_some.1 hv with hv | ⟨hnone, rfl, rfl⟩
      · obtain ⟨ks', hks, rfl⟩ := (Rule.run_node rfl).1 hv
        obtain ⟨hns, rfl, -⟩ := Blank.run_ws_eq_some.1 hks
        obtain ⟨q, rs, hq, hrs, rfl⟩ := items_cons_eq_ok hps
        obtain ⟨p, qs, hp, hqs, rfl⟩ := items_cons_eq_ok hrs
        cases hq
        obtain ⟨b, hb, hsb⟩ := blanks_skip s
        have hne : b ≠ [] := by
          rintro rfl
          rw [List.nil_append] at hsb
          exact hns (hsb ▸ Blank.settled_skip s)
        rw [hsb]
        exact .spaced hb hne (hsettled (Blank.settled_skip s) p hp) (hmore qs hqs)
      · obtain ⟨p, qs, hp, hqs, rfl⟩ := items_cons_eq_ok hps
        exact .adjacent (hsettled (run_argSpace_none.1 hnone) p hp) (hmore qs hqs)

theorem argumentAt (s : List Char) : ArgumentAt s := by
  induction hn : s.length using Nat.strongRecOn generalizing s with
  | ind n ih =>
      have ih (v : List Char) (hv : v.length < s.length) : ArgumentAt v := ih v.length (hn ▸ hv) v rfl
      intro t ns ps h hread hs
      rcases run_maybe_eq_some.1 h with h | ⟨-, rfl, rfl⟩
      · obtain ⟨ms, hm, rfl⟩ := (Rule.run_node rfl).1 h
        obtain ⟨u, ks, ls, hitem, hrest, rfl⟩ := run_seq_eq_some.1 hm
        obtain ⟨m, rfl⟩ := single_of_argItem hitem
        have hi := (run_star_eq_some Rule.lawful_run rfl).1 hrest
        have hshort := run_shorter Rule.lawful_run argItem rfl hitem
        cases hread with
        | argument _ hps =>
            obtain ⟨p, qs, hp, hqs, rfl⟩ := items_cons_eq_ok hps
            exact .cons (itemAt_of_run ih hs hitem hp) (moreAt_of_iterates (fun v hv => ih v (by omega)) hi hqs)
      · cases hread
        exact .nil

/-! What stands somewhere is matched there. -/

theorem ItemAt.settled (h : ItemAt p s t) : Blank.Settled s := by
  cases h with
  | token _ hs => exact hs
  | group hoc =>
      rcases pair_cases hoc with ⟨rfl, rfl⟩ | ⟨rfl, rfl⟩
      · exact settled_of_head rfl (by decide) _
      · exact settled_of_head rfl (by decide) _

theorem ItemAt.run_round (h : ItemAt p s t) (hrun : argItem.run Rule.run s = some (t, [n])) :
    round.run Rule.run s = some (t, [n]) :=
  run_seq_eq_some.2 ⟨s, [], _, run_maybe_eq_some.2 (Or.inr ⟨run_argSpace_none.2 h.settled, rfl, rfl⟩), hrun, rfl⟩

theorem run_argItem_of_group (ho : isOpener o = true) {x : List Char × List Node}
    (h : Rule.argGroup.run (o :: s) = some x) : argItem.run Rule.run (o :: s) = some x := by
  exact run_choices_of [call .string, call .number, call .ident] (run_opener_none ho s) h

/-- A group is matched by the alternative for its brackets. -/
theorem run_group_item (hoc : (o, c) ∈ [('(', ')'), ('[', ']')]) {b₁ : List Char}
    (hm : (maybe (call .argument)).run Rule.run (Blank.skip (b₁ ++ s)) = some (u, ms)) (hu : Blank.skip u = c :: t)
    (hread : ReadAs ms ps) : ∃ n, argItem.run Rule.run (o :: (b₁ ++ s)) = some (t, [n]) ∧
      item n = .ok (.list (.text (String.ofList [o]) :: (ps ++ [.text (String.ofList [c])]))) := by
  have hgroup {q : Rule} (hb : body q = exactly c) (hq : q ∈ [.parenClose, .bracketClose]) :
      (group o q).run Rule.run (o :: (b₁ ++ s)) = some (t, ms ++ [⟨q, c :: t, t, []⟩]) ∧
        groupItems (ms ++ [⟨q, c :: t, t, []⟩]) = .ok (ps ++ [.text (String.ofList [c])]) := by
    have hclose : Place.between (c :: t) t = [c] := Place.between_append [c] t
    have hitems := groupItems_closed (t := c :: t) (u := t) hread hq
    rw [hclose] at hitems
    exact ⟨(run_group_eq_some hb (isSilent_of_closer hq)).2 ⟨_, u, ms, rfl, hm, hu, rfl⟩, hitems⟩
  have hitem {ks : List Node} (hks : groupItems ks = .ok (ps ++ [.text (String.ofList [c])])) :
      item ⟨.argGroup, o :: (b₁ ++ s), t, ks⟩ =
        .ok (.list (.text (String.ofList [o]) :: (ps ++ [.text (String.ofList [c])]))) := by
    rw [item, hks]
    rfl
  rcases pair_cases hoc with ⟨rfl, rfl⟩ | ⟨rfl, rfl⟩
  · obtain ⟨hg, hks⟩ := hgroup (q := .parenClose) rfl (by simp)
    exact ⟨_, run_argItem_of_group rfl ((Rule.run_node rfl).2 ⟨_, run_choice_eq_some.2 (Or.inl hg), rfl⟩), hitem hks⟩
  · obtain ⟨hg, hks⟩ := hgroup (q := .bracketClose) rfl (by simp)
    have hround : (group '(' .parenClose).run Rule.run ('[' :: (b₁ ++ s)) = none := run_group_none (by decide) _
    exact ⟨_, run_argItem_of_group rfl ((Rule.run_node rfl).2 ⟨_, run_choice_eq_some.2 (Or.inr ⟨hround, hg⟩), rfl⟩),
      hitem hks⟩

theorem closing_of_pair (hoc : (o, c) ∈ [('(', ')'), ('[', ']')]) (t : List Char) :
    Closing (c :: t) ∧ Blank.Settled (c :: t) := by
  rcases pair_cases hoc with ⟨rfl, rfl⟩ | ⟨rfl, rfl⟩
  · exact ⟨fun _ _ h => Or.inl (List.cons.inj h).1.symm, settled_of_head rfl (by decide) t⟩
  · exact ⟨fun _ _ h => Or.inr (List.cons.inj h).1.symm, settled_of_head rfl (by decide) t⟩

theorem argItem_isMatch (h : argItem.run Rule.run s = some (t, ns)) (hn : n ∈ ns) : n.IsMatch :=
  (Expression.mem_of_run (e := argItem) (by decide) h hn).2

mutual

theorem ItemAt.run : ∀ {p s t}, ItemAt p s t → ∃ n, argItem.run Rule.run s = some (t, [n]) ∧ item n = .ok p
  | _, _, _, @ItemAt.token r w t hr _ => by
      refine ⟨_, run_argItem_of_tokenizes hr, ?_⟩
      have htext : Place.between (w ++ t) t = w := Place.between_append w t
      rcases hr.cases with rfl | rfl | rfl | rfl <;> rw [item, htext]
  | _, _, _, @ItemAt.group o c ps b₁ s b₂ t hoc hb₁ hps hb₂ => by
      obtain ⟨hclosing, hsettled⟩ := closing_of_pair hoc t
      have hskip : Blank.skip (b₂ ++ c :: t) = c :: t := by rw [skip_blanks hb₂, hsettled.skip_eq]
      obtain ⟨u, ms, hm, hu, hread⟩ := hps.run (by rw [Finished, hskip]; exact hclosing)
      rw [← skip_blanks hb₁] at hm
      exact run_group_item hoc hm (hu.trans hskip) hread

theorem ItemsAt.run : ∀ {ps s t}, ItemsAt ps s t → Finished t →
    ∃ u ms, (maybe (call .argument)).run Rule.run (Blank.skip s) = some (u, ms) ∧ Blank.skip u = Blank.skip t ∧ ReadAs ms ps
  | _, _, _, @ItemsAt.nil s, ht => by
      refine ⟨Blank.skip s, [], run_maybe_eq_some.2 (Or.inr ⟨?_, rfl, rfl⟩), (Blank.settled_skip s).skip_eq, .nothing⟩
      exact Rule.run_eq_none.2 (run_seq_eq_none.2 (Or.inl ht.run_argItem))
  | _, _, _, @ItemsAt.cons p ps s v t hp hps, ht => by
      obtain ⟨n, hn, hitem⟩ := hp.run
      obtain ⟨ns, hi, hitems, hmatch⟩ := hps.run ht
      have hrest := (run_star_eq_some Rule.lawful_run (e := round) rfl).2 hi
      have hargument : Rule.argument.run s = some (t, [⟨.argument, s, t, n :: ns⟩]) :=
        (Rule.run_node rfl).2 ⟨_, run_seq_eq_some.2 ⟨v, [n], ns, hn, hrest, rfl⟩, rfl⟩
      rw [hp.settled.skip_eq]
      refine ⟨t, _, run_maybe_eq_some.2 (Or.inl hargument), rfl, .argument ?_ (items_cons_of_ok hitem hitems)⟩
      intro m hm
      rcases List.mem_cons.1 hm with rfl | hm
      · exact argItem_isMatch hn List.mem_cons_self
      · exact hmatch m hm

theorem MoreAt.run : ∀ {ps s t}, MoreAt ps s t → Finished t →
    ∃ ns, Iterates (round.run Rule.run) s t ns ∧ items ns = .ok ps ∧ ∀ n ∈ ns, n.IsMatch
  | _, _, _, .nil, ht => ⟨[], .stop ht.run_round, rfl, nofun⟩
  | _, _, _, .adjacent hp hps, ht => by
      obtain ⟨n, hn, hitem⟩ := hp.run
      obtain ⟨ns, hi, hitems, hmatch⟩ := hps.run ht
      refine ⟨_, .next (hp.run_round hn) hi, items_cons_of_ok hitem hitems, ?_⟩
      intro m hm
      rcases List.mem_cons.1 hm with rfl | hm
      · exact argItem_isMatch hn List.mem_cons_self
      · exact hmatch m hm
  | _, _, _, @MoreAt.spaced p ps b s u t hb hne hp hps, ht => by
      obtain ⟨n, hn, hitem⟩ := hp.run
      obtain ⟨ns, hi, hitems, hmatch⟩ := hps.run ht
      have hspace : Rule.argSpace.run (b ++ s) = some (s, [⟨.argSpace, b ++ s, s, []⟩]) :=
        (Rule.run_node rfl).2 ⟨[], ws_of_blanks hb hne hp.settled, rfl⟩
      have hround : round.run Rule.run (b ++ s) = some (u, [⟨.argSpace, b ++ s, s, []⟩, n]) :=
        run_seq_eq_some.2 ⟨s, _, [n], run_maybe_eq_some.2 (Or.inl hspace), hn, rfl⟩
      refine ⟨_, .next hround hi, items_cons_of_ok rfl (items_cons_of_ok hitem hitems), ?_⟩
      intro m hm
      rcases List.mem_append.1 hm with hm | hm
      · exact (Expression.mem_of_run (e := round) (by decide) hround hm).2
      · exact hmatch m hm

end

/-- The items of a text stand in it between blanks, and nothing else is in it. -/
theorem itemsAt_of_itemsOf (h : ItemsOf t ps) :
    ∃ b₁ s b₂, Blanks b₁ ∧ Blanks b₂ ∧ t = b₁ ++ s ∧ ItemsAt ps s b₂ := by
  obtain ⟨u, ms, hm, hu, hread⟩ := h.reads
  obtain ⟨b₁, hb₁, ht⟩ := blanks_skip t
  obtain ⟨b₂, hb₂, hub⟩ := blanks_skip u
  rw [hu, List.append_nil] at hub
  exact ⟨b₁, _, u, hb₁, hub ▸ hb₂, ht, argumentAt _ hm hread (Blank.settled_skip t)⟩

/-- Items that stand between blanks are what the text is read as. -/
theorem parse_of_itemsAt {d : Nat} {b₁ b₂ : List Char} (hb₁ : Blanks b₁) (hb₂ : Blanks b₂) (h : ItemsAt ps s b₂)
    (hd : Parameter.depthOfAll ps ≤ d) : parseTextFragment (b₁ ++ s) d = .ok (.list ps) := by
  have hend : Blank.skip b₂ = [] := by rw [← List.append_nil b₂, skip_blanks hb₂, Blank.skip_nil]
  obtain ⟨u, ms, hm, hu, hread⟩ := h.run fun c r hc => by rw [hend] at hc; cases hc
  rw [← skip_blanks hb₁] at hm
  have htext := run_text_eq_some.2 ⟨u, ms, hm, hu.trans hend, rfl, rfl⟩
  have hroot : Node.nesting ⟨.text, b₁ ++ s, [], ms ++ [⟨.endOfInput, [], [], []⟩]⟩ ≤ d := by
    have hlast : Node.nesting ⟨.endOfInput, [], [], []⟩ = 0 := rfl
    rw [Node.nesting_plain rfl, Node.nestingOfAll_append, Node.nestingOfAll_cons, hlast, Node.nestingOfAll_nil,
      Nat.max_self, Nat.max_zero]
    exact Nat.le_trans hread.nesting_le hd
  obtain ⟨report, hscan⟩ := exists_scan (r := .text) trivial rfl htext hroot
  refine parseTextFragment_of_run hscan htext ?_
  have hitems : argumentItems ⟨.text, b₁ ++ s, [], ms ++ [⟨.endOfInput, [], [], []⟩]⟩ = .ok ps := hread.argumentItems nofun
  rw [OfNodes.text, hitems]
  rfl

end SelectorSyntax.Selector.Spelling
