import SelectorSyntax.Proofs.Bracket.Context
import SelectorSyntax.Proofs.Spelling.Endings

namespace SelectorSyntax.Bracket

open Grammar Grammar.Expression Selector.Spelling Text CharClass

variable {e f : Expression} {r closer : Rule} {c o : Char} {k s t u v x y : List Char} {ns ms : List Node}
  {ps qs : List (List Char × List Char)}

/-- What is read of the text if `k` follows it ends where a bracket is closed, or with the text, in front of a
closer or the end. -/
def Confined (k s : List Char) : Prop := ∃ z ps, Balanced (s ++ k) (z ++ k) ps ∧ Closing (z ++ k)

theorem Confined.rest (hs : Confined k s) (h : Balanced (s ++ k) x ps) : ∃ v, x = v ++ k ∧ Confined k v := by
  obtain ⟨z, qs, hz, hc⟩ := hs
  obtain ⟨rs, hr⟩ := h.rest hz hc
  obtain ⟨v, rfl⟩ := exists_append_of_suffix hr.suffix
  exact ⟨v, rfl, z, rs, hr, hc⟩

theorem Confined.replace (hs : Confined k s) (h : Balanced (s ++ k) (v ++ k) ps) : Confined k v := by
  obtain ⟨w, hw, hv⟩ := hs.rest h
  rwa [eq_of_append_eq hw]

theorem Confined.inside (ho : isOpener o = true) (hs : Confined k (o :: s)) : Confined k s := by
  obtain ⟨z, qs, hz, hc⟩ := hs
  generalize hx : o :: s ++ k = x at hz
  generalize hy : z ++ k = y at hz
  cases hz with
  | nil =>
      rw [hy, ← hx] at hc
      exact absurd hc (not_closing_of_opener ho)
  | unit hu =>
      rw [← hx, List.cons_append, unit?_opener ho] at hu
      cases hu
  | @group _ d _ r _ _ _ _ hd hin hrest =>
      cases hx
      obtain ⟨y, rfl⟩ := exists_append_of_suffix (hy ▸ hrest.suffix)
      exact ⟨d :: y, _, hin, AtCloser.closing ⟨d, _, y ++ k, rfl, hd⟩⟩

theorem Confined.closing (h : Confined k []) : Closing k := by
  obtain ⟨z, qs, hz, hc⟩ := h
  have hle := hz.suffix.length_le
  rw [List.length_append, List.nil_append] at hle
  obtain rfl : z = [] := List.length_eq_zero_iff.1 (by omega)
  exact hc

/-- A comment would be balanced, so that it could not go on behind the text. -/
theorem guards_confined : Guards (Confined k) t k where
  comment c s _ hs hn := by
    cases hc : Blank.comment? (c :: s ++ k) with
    | none => rfl
    | some x =>
        obtain ⟨y, rfl, -⟩ := hs.rest (.of_unit (unit?_comment hc))
        rw [comment?_replace hc t] at hn
        cases hn
  rest _ _ _ hs h := hs.replace h
  inside _ _ ho hs := hs.inside ho

/-! Two texts that may follow. -/

/-- The text is confined whichever of two texts follows. -/
structure Inside (u k s : List Char) : Prop where
  left : Confined u s
  right : Confined k s

theorem Inside.symm (h : Inside u k s) : Inside k u s := ⟨h.right, h.left⟩

theorem Inside.rest (h : Inside u k s) (hb : Balanced (s ++ u) x ps) : ∃ v, x = v ++ u ∧ Inside u k v := by
  obtain ⟨v, rfl, hv⟩ := h.left.rest hb
  obtain ⟨qs, hq⟩ := hb.replace guards_confined h.right
  exact ⟨v, rfl, hv, h.right.replace hq⟩

theorem Inside.replace (h : Inside u k s) (hb : Balanced (s ++ u) (v ++ u) ps) : Inside u k v := by
  obtain ⟨w, hw, hv⟩ := h.rest hb
  rwa [eq_of_append_eq hw]

theorem Inside.inside (ho : isOpener o = true) (h : Inside u k (o :: s)) : Inside u k s :=
  ⟨h.left.inside ho, h.right.inside ho⟩

theorem Inside.closing (h : Inside u k []) : Closing u ∧ Closing k := ⟨h.left.closing, h.right.closing⟩

/-- Whichever text follows, there is the same place where the text ends or a bracket is closed that is open. -/
theorem Inside.exists_closing (h : Inside u k s) : ∃ w z, s = w ++ z ∧ Closing (z ++ u) ∧ Closing (z ++ k) := by
  obtain ⟨z, ps, hz, hc⟩ := h.left
  obtain ⟨w, rfl⟩ := List.suffix_append_self_iff.1 hz.suffix
  refine ⟨w, z, rfl, hc, ?_⟩
  cases z with
  | nil => exact (h.replace hz).closing.2
  | cons d z =>
      rintro c r ⟨⟩
      exact hc d (z ++ u) rfl

theorem Inside.settled (h : Inside u k s) (hs : Blank.Settled (s ++ u)) : Blank.Settled (s ++ k) := by
  cases s with
  | nil => exact settled_closing h.closing.2 (by simp [Uncommented]) ⟨rfl, fun c r h => by cases h⟩
  | cons c s =>
      refine ⟨?_, fun d r hd => ?_⟩
      · by_cases hc : c = '/'
        · exact guards_confined.comment (by rw [hc]; rfl) h.right hs.comment
        · exact comment?_eq_none hc
      · cases hd
        exact hs.whitespace c (s ++ u) rfl

theorem Inside.skip (h : Inside u k s) :
    ∃ v, Blank.skip (s ++ u) = v ++ u ∧ Blank.skip (s ++ k) = v ++ k ∧ Inside u k v := by
  obtain ⟨v, hv, hin⟩ := h.rest (balanced_skip (s ++ u))
  obtain ⟨b, hb, hs⟩ := blanks_skip (s ++ u)
  have hsettled : Blank.Settled (v ++ u) := hv ▸ Blank.settled_skip (s ++ u)
  rw [hv, ← List.append_assoc] at hs
  refine ⟨v, hv, ?_, hin⟩
  rw [eq_of_append_eq hs, List.append_assoc, skip_blanks hb, (hin.settled hsettled).skip_eq]

/-- Where no character of a name follows, none follows whatever stands behind the text. -/
theorem Inside.parts (h : Inside u k s) (hn : nmchar.run Rule.run (s ++ u) = none) : Parts s k := by
  cases s with
  | nil =>
      have hk := h.closing.2
      refine ⟨fun c r hc => ?_, Or.inr hk.ends⟩
      rcases hk c r hc with rfl | rfl <;> exact ⟨rfl, by decide⟩
  | cons c s =>
      refine ⟨.cons ?_ ?_, Or.inl (List.cons_ne_nil c s)⟩
      · refine Bool.eq_false_iff.2 fun hc => ?_
        cases hn.symm.trans (Identifier.run_nmchar_eq_some.2 ⟨Or.inr ⟨c, hc, rfl⟩, rfl⟩)
      · rintro rfl
        obtain ⟨z, ps, hz, hc⟩ := h.left
        generalize hx : '\\' :: s ++ u = x at hz
        generalize hy : z ++ u = y at hz
        cases hz with
        | nil =>
            obtain rfl := eq_of_append_eq (hx.trans hy.symm)
            rcases hc _ _ rfl with h | h <;> cases h
        | unit hu =>
            rw [← hx, List.cons_append, unit?, if_neg (by decide), if_pos rfl] at hu
            split at hu
            next hv =>
              obtain ⟨d, t, hd⟩ := Escape.exists_read hv
              cases hn.symm.trans (Identifier.run_nmchar_eq_some.2 ⟨Or.inl ⟨d, _, rfl, hd⟩, rfl⟩)
            next => cases hu
        | group ho =>
            cases hx
            cases ho

/-! What is matched in both. -/

/-- An expression fails on a text whichever of `u` and `k` follows, or it takes the same of it, and makes the same nodes
of that but for their places. -/
def Same (e : Expression) (u k s : List Char) : Prop :=
  e.run Rule.run (s ++ u) = none ∧ e.run Rule.run (s ++ k) = none ∨
    ∃ v ns ms, e.run Rule.run (s ++ u) = some (v ++ u, ns) ∧ e.run Rule.run (s ++ k) = some (v ++ k, ms) ∧
      Node.bareOfAll ms = Node.bareOfAll ns

/-- An expression that takes something if `u` follows takes the same if `k` follows instead. -/
def Carried (e : Expression) (u k s : List Char) : Prop :=
  ∀ ⦃x ns⦄, e.run Rule.run (s ++ u) = some (x, ns) →
    ∃ v ms, x = v ++ u ∧ e.run Rule.run (s ++ k) = some (v ++ k, ms) ∧ Node.bareOfAll ms = Node.bareOfAll ns

theorem Same.carried (h : Same e u k s) : Carried e u k s := by
  intro x ns hx
  rcases h with ⟨hn, -⟩ | ⟨v, ns', ms, hv, hm, hb⟩
  · cases hx.symm.trans hn
  · cases hx.symm.trans hv
    exact ⟨v, ms, rfl, hm, hb⟩

theorem Same.of_carried (h : Carried e u k s) (h' : Carried e k u s) : Same e u k s := by
  cases hx : e.run Rule.run (s ++ u) with
  | some x =>
      obtain ⟨v, ms, hv, hm, hb⟩ := h hx
      exact Or.inr ⟨v, x.2, ms, by rw [hx, ← hv], hm, hb⟩
  | none =>
      cases hy : e.run Rule.run (s ++ k) with
      | none => exact Or.inl ⟨hx, hy⟩
      | some y =>
          obtain ⟨v, ms, -, hm, -⟩ := h' hy
          cases hx.symm.trans hm

theorem Same.symm (h : Same e u k s) : Same e k u s := by
  rcases h with ⟨hu, hk⟩ | ⟨v, ns, ms, hu, hk, hb⟩
  · exact Or.inl ⟨hk, hu⟩
  · exact Or.inr ⟨v, ms, ns, hk, hu, hb.symm⟩

theorem Same.seq (he : Same e u k s) (hf : ∀ ⦃v ns⦄, e.run Rule.run (s ++ u) = some (v ++ u, ns) → Same f u k v) :
    Same (.seq e f) u k s := by
  rcases he with ⟨hu, hk⟩ | ⟨v, ns, ms, hu, hk, hb⟩
  · exact Or.inl ⟨run_seq_eq_none.2 (Or.inl hu), run_seq_eq_none.2 (Or.inl hk)⟩
  · rcases hf hu with ⟨hu', hk'⟩ | ⟨w, ns', ms', hu', hk', hb'⟩
    · exact Or.inl ⟨run_seq_eq_none.2 (Or.inr ⟨_, _, hu, hu'⟩), run_seq_eq_none.2 (Or.inr ⟨_, _, hk, hk'⟩)⟩
    · refine Or.inr ⟨w, ns ++ ns', ms ++ ms', run_seq_eq_some.2 ⟨_, _, _, hu, hu', rfl⟩,
        run_seq_eq_some.2 ⟨_, _, _, hk, hk', rfl⟩, ?_⟩
      rw [Node.bareOfAll_append, Node.bareOfAll_append, hb, hb']

theorem Same.choice (he : Same e u k s) (hf : Same f u k s) : Same (.choice e f) u k s := by
  rcases he with ⟨hu, hk⟩ | ⟨v, ns, ms, hu, hk, hb⟩
  · rcases hf with ⟨hu', hk'⟩ | ⟨v, ns, ms, hu', hk', hb⟩
    · exact Or.inl ⟨run_choice_eq_none.2 ⟨hu, hu'⟩, run_choice_eq_none.2 ⟨hk, hk'⟩⟩
    · exact Or.inr ⟨v, ns, ms, run_choice_eq_some.2 (Or.inr ⟨hu, hu'⟩), run_choice_eq_some.2 (Or.inr ⟨hk, hk'⟩), hb⟩
  · exact Or.inr ⟨v, ns, ms, run_choice_eq_some.2 (Or.inl hu), run_choice_eq_some.2 (Or.inl hk), hb⟩

theorem Same.maybe (he : Same e u k s) : Same (maybe e) u k s :=
  he.choice (Or.inr ⟨s, [], [], rfl, rfl, rfl⟩)

theorem Same.call (h : Same (body r) u k s) : Same (.call r) u k s := by
  rcases h with ⟨hu, hk⟩ | ⟨v, ns, ms, hu, hk, hb⟩
  · exact Or.inl ⟨Rule.run_eq_none.2 hu, Rule.run_eq_none.2 hk⟩
  · obtain ⟨x, hx⟩ : ∃ x, r.run (s ++ u) = some (v ++ u, x) := consumes_call.2 ⟨ns, hu⟩
    obtain ⟨ks, hks, hb⟩ := Rule.run_replace hu hx ⟨ms, hk, hb⟩
    exact Or.inr ⟨v, x, ks, hx, hks, hb⟩

/-- A repetition goes on as far whichever text follows, if each round does. -/
theorem Same.star {P : List Char → Prop} (he : e.takes = true) (hround : ∀ ⦃v⦄, P v → Same e u k v)
    (hP : ∀ ⦃v w ns⦄, P v → e.run Rule.run (v ++ u) = some (w ++ u, ns) → P w) (hs : P s) : Same (.star e) u k s := by
  obtain ⟨x, ns, hi⟩ := exists_iterates Rule.lawful_run he (s ++ u)
  suffices h : ∃ v ms, x = v ++ u ∧ Iterates (e.run Rule.run) (s ++ k) (v ++ k) ms ∧
      Node.bareOfAll ms = Node.bareOfAll ns by
    obtain ⟨v, ms, rfl, hk, hb⟩ := h
    exact Or.inr ⟨v, ns, ms, (run_star_eq_some Rule.lawful_run he).2 hi, (run_star_eq_some Rule.lawful_run he).2 hk, hb⟩
  generalize hx : s ++ u = a at hi
  induction hi generalizing s with
  | stop hn =>
      subst hx
      rcases hround hs with ⟨-, hk⟩ | ⟨v, _, _, hu, -⟩
      · exact ⟨s, [], rfl, .stop hk, rfl⟩
      · cases hn.symm.trans hu
  | @next _ y _ ns ns' hy _ ih =>
      subst hx
      obtain ⟨v, ms, rfl, hm, hb⟩ := (hround hs).carried hy
      obtain ⟨w, ms', rfl, hi, hb'⟩ := ih (hP hs hy) rfl
      refine ⟨w, ms ++ ms', rfl, .next hm hi, ?_⟩
      rw [Node.bareOfAll_append, Node.bareOfAll_append, hb, hb']

/-! Tokens. -/

/-- A token has to be followed by the same, wherever it ends. -/
theorem same_token (hr : r.isToken = true) (hin : Inside u k s) (ha : Admits r (s ++ u)) (ha' : Admits r (s ++ k))
    (h : ∀ ⦃u k v⦄, Inside u k s → Inside u k v → (call r).Consumes (s ++ u) (v ++ u) →
      (call r).Consumes (s ++ k) (v ++ k)) : Same (call r) u k s := by
  have hcarried {u k : List Char} (hin : Inside u k s) (ha : Admits r (s ++ u)) : Carried (call r) u k s := by
    intro x ns hx
    obtain ⟨v, rfl, hv⟩ := hin.rest (balanced_token hr ha hx)
    obtain ⟨ms, hm⟩ := h hin hv ⟨ns, hx⟩
    exact ⟨v, ms, rfl, hm, Rule.bareOfAll_token hr hx hm⟩
  exact .of_carried (hcarried hin ha) (hcarried hin.symm ha')

theorem same_string (hin : Inside u k s) : Same (call .string) u k s :=
  same_token rfl hin trivial trivial fun _ k _ _ _ ⟨_, h⟩ => run_string_replace h k

theorem same_ident (hin : Inside u k s) : Same (call .ident) u k s := by
  refine same_token rfl hin trivial trivial fun u k v _ hv ⟨ns, h⟩ => ?_
  obtain ⟨_, -, hi, -⟩ := Identifier.run_ident_eq_some.1 h
  have hparts := hv.parts hi.done
  exact ⟨_, run_ident_replace h hparts.stops.run_nmchar hparts.ends⟩

theorem same_number (hin : Inside u k s) : Same (call .number) u k s := by
  refine same_token rfl hin trivial trivial fun u k v hs hv ⟨ns, h⟩ => ?_
  obtain ⟨x, hx, hi, -⟩ := run_number_eq_some.1 h
  obtain ⟨w, z, rfl, hu, hk⟩ := hs.exists_closing
  have hmagnitude := steady_magnitude hu w List.suffix_rfl
  rw [← List.append_assoc, hx] at hmagnitude
  obtain ⟨⟨y, ms⟩, hy, hxy⟩ := Option.map_eq_some_iff.1 hmagnitude.symm
  cases hxy
  have hmagnitude := steady_magnitude hk w List.suffix_rfl
  rw [← List.append_assoc, hy, Option.map_some] at hmagnitude
  rw [← List.append_assoc] at hi
  have hparts := hv.parts hi.done
  have hi := iterates_nmchar_replace hi hparts.stops.run_nmchar hparts.ends
  rw [List.append_assoc] at hi
  exact ⟨_, run_number_eq_some.2 ⟨_, hmagnitude, hi, rfl⟩⟩

theorem same_delim (hin : Inside u k s) : Same (call .argDelim) u k s := by
  cases s with
  | nil =>
      have hnone {u : List Char} (hu : Closing u) : Rule.argDelim.run u = none := by
        cases h : Rule.argDelim.run u with
        | none => rfl
        | some x =>
            obtain ⟨c, hc, hs, -⟩ := run_argDelim_eq_some.1 h
            rcases hu c x.1 hs with rfl | rfl <;> cases hc
      exact Or.inl ⟨hnone hin.closing.1, hnone hin.closing.2⟩
  | cons c s =>
      have hcarried (u k : List Char) : Carried (call .argDelim) u k (c :: s) := by
        intro x ns h
        obtain ⟨d, hd, hs, -⟩ := run_argDelim_eq_some.1 h
        cases hs
        have hm : Rule.argDelim.run (c :: s ++ k) = some (s ++ k, [⟨.argDelim, c :: s ++ k, s ++ k, []⟩]) :=
          run_argDelim_eq_some.2 ⟨c, hd, rfl, rfl⟩
        exact ⟨s, _, rfl, hm, Rule.bareOfAll_token rfl h hm⟩
      exact .of_carried (hcarried u k) (hcarried k u)

/-! Arguments. -/

theorem same_space (hin : Inside u k s) : Same (call .argSpace) u k s := by
  refine .call ?_
  obtain ⟨v, hu, hk, -⟩ := hin.skip
  by_cases hs : Blank.Settled (s ++ u)
  · exact Or.inl ⟨Blank.run_ws_eq_none.2 hs, Blank.run_ws_eq_none.2 (hin.settled hs)⟩
  · have hs' : ¬ Blank.Settled (s ++ k) := fun h => hs (hin.symm.settled h)
    exact Or.inr ⟨v, [], [], Blank.run_ws_eq_some.2 ⟨hs, hu.symm, rfl⟩, Blank.run_ws_eq_some.2 ⟨hs', hk.symm, rfl⟩, rfl⟩

theorem balanced_maybe_argument (hs : Blank.comment? s = none) (h : (maybe (call .argument)).Consumes s t) :
    ∃ ps, Balanced s t ps := by
  rcases consumes_maybe.1 h with ⟨ns, h⟩ | ⟨-, rfl⟩
  · exact ⟨_, (paired_of_run .argument s hs rfl rfl h).balanced⟩
  · exact ⟨[], .nil⟩

/-- Between brackets there is the same argument, or none, and what closes them. -/
theorem maybe_argument_replace {z : List Char} (hin : Inside u k s)
    (ih : ∀ ⦃v⦄, v.length ≤ s.length → Inside u k v → Blank.Settled (v ++ u) → Same (call .argument) u k v)
    (hm : (maybe (call .argument)).run Rule.run (Blank.skip (s ++ u)) = some (x, ns)) (hx : Blank.skip x = z ++ u) :
    ∃ y ms, (maybe (call .argument)).run Rule.run (Blank.skip (s ++ k)) = some (y, ms) ∧ Blank.skip y = z ++ k ∧
      Node.bareOfAll ms = Node.bareOfAll ns := by
  obtain ⟨v, hu, hk, hv⟩ := hin.skip
  have hsettled : Blank.Settled (v ++ u) := hu ▸ Blank.settled_skip (s ++ u)
  have hle : v <:+ s := List.suffix_append_self_iff.1 (hu ▸ Blank.skip_suffix (s ++ u))
  rw [hu] at hm
  obtain ⟨ps, hbalanced⟩ := balanced_maybe_argument hsettled.comment ⟨ns, hm⟩
  obtain ⟨w, ms, rfl, hm', hbare⟩ := (ih hle.length_le hv hsettled).maybe.carried hm
  obtain ⟨z', hz, hz', -⟩ := (hv.replace hbalanced).skip
  obtain rfl : z = z' := eq_of_append_eq (hx.symm.trans hz)
  exact ⟨w ++ k, ms, hk ▸ hm', hz', hbare⟩

/-- What a group takes is the same if its argument is. -/
theorem group_replace (hb : body closer = exactly c) (hr : closer.isSilent = false) (hin : Inside u k s)
    (ih : ∀ ⦃v⦄, v.length ≤ s.length → Inside u k v → Blank.Settled (v ++ u) → Same (call .argument) u k v)
    (h : (group o closer).run Rule.run (o :: s ++ u) = some (v ++ u, ns)) :
    ∃ ms, (group o closer).run Rule.run (o :: s ++ k) = some (v ++ k, ms) ∧ Node.bareOfAll ms = Node.bareOfAll ns := by
  obtain ⟨s', x, ms, hs, hm, hx, rfl⟩ := (run_group_eq_some hb hr).1 h
  obtain rfl : s ++ u = s' := (List.cons.inj hs).2
  obtain ⟨y, ms', hm', hy, hbare⟩ := maybe_argument_replace (z := c :: v) hin ih hm hx
  refine ⟨_, (run_group_eq_some hb hr).2 ⟨s ++ k, y, ms', rfl, hm', hy, rfl⟩, ?_⟩
  have hclose : Place.between (c :: (v ++ k)) (v ++ k) = Place.between (c :: (v ++ u)) (v ++ u) :=
    between_replace (s := c :: v) (List.suffix_cons c (v ++ u)) k
  simp only [Node.bareOfAll_append, hbare, Node.bareOfAll, Node.bare, hclose]

theorem same_group (hin : Inside u k s)
    (ih : ∀ ⦃v⦄, v.length < s.length → Inside u k v → Blank.Settled (v ++ u) → Same (call .argument) u k v) :
    Same (call .argGroup) u k s := by
  have hcarried {u k : List Char} (hin : Inside u k s)
      (ih : ∀ ⦃v⦄, v.length < s.length → Inside u k v → Blank.Settled (v ++ u) → Same (call .argument) u k v) :
      Carried (call .argGroup) u k s := by
    intro x ns h
    obtain ⟨v, rfl, -⟩ := hin.rest (paired_of_run .argGroup (s ++ u) trivial rfl rfl h).balanced
    have hlt := Rule.lawful_run.shorter (r := .argGroup) rfl h
    have hne : s ≠ [] := by
      rintro rfl
      rw [List.nil_append, List.length_append] at hlt
      omega
    obtain ⟨o, s, rfl⟩ := List.exists_cons_of_ne_nil hne
    obtain ⟨ms, hm, -⟩ := (Rule.run_node rfl).1 h
    suffices hbody : ∃ ks, (body .argGroup).run Rule.run (o :: s ++ k) = some (v ++ k, ks) ∧
        Node.bareOfAll ks = Node.bareOfAll ms by
      obtain ⟨ks, hk, hb⟩ := Rule.run_replace hm h hbody
      exact ⟨v, ks, rfl, hk, hb⟩
    rcases run_choice_eq_some.1 hm with hm | ⟨-, hm⟩
    · obtain ⟨_, _, _, hs, -⟩ := (run_group_eq_some rfl rfl).1 hm
      obtain rfl : o = '(' := (List.cons.inj hs).1
      obtain ⟨ks, hk, hb⟩ := group_replace rfl rfl (hin.inside rfl) (fun v hv => ih (Nat.lt_succ_of_le hv)) hm
      exact ⟨ks, run_choice_eq_some.2 (Or.inl hk), hb⟩
    · obtain ⟨_, _, _, hs, -⟩ := (run_group_eq_some rfl rfl).1 hm
      obtain rfl : o = '[' := (List.cons.inj hs).1
      obtain ⟨ks, hk, hb⟩ := group_replace rfl rfl (hin.inside rfl) (fun v hv => ih (Nat.lt_succ_of_le hv)) hm
      exact ⟨ks, run_choice_eq_some.2 (Or.inr ⟨run_group_none (by decide) _, hk⟩), hb⟩
  refine .of_carried (hcarried hin ih) (hcarried hin.symm fun v hv hv' hs => ?_)
  exact (ih hv hv'.symm (hv'.settled hs)).symm

theorem same_item (hin : Inside u k s)
    (ih : ∀ ⦃v⦄, v.length < s.length → Inside u k v → Blank.Settled (v ++ u) → Same (call .argument) u k v) :
    Same argItem u k s :=
  (same_string hin).choice <| (same_number hin).choice <| (same_ident hin).choice <|
    (same_group hin ih).choice (same_delim hin)

theorem balanced_maybe_space (h : (maybe (call .argSpace)).Consumes s t) : ∃ ps, Balanced s t ps := by
  rcases consumes_maybe.1 h with ⟨ns, h⟩ | ⟨-, rfl⟩
  · exact ⟨_, (paired_of_run .argSpace s trivial rfl rfl h).balanced⟩
  · exact ⟨[], .nil⟩

theorem balanced_round (h : round.Consumes s t) : ∃ ps, Balanced s t ps := by
  obtain ⟨ns, h⟩ := h
  obtain ⟨ms, hm⟩ := run_argItem_of_round h
  exact ⟨_, (balanced_skip s).trans (balanced_argItem (Blank.settled_skip s).comment hm)⟩

/-- An argument that is confined is the same whichever text follows. -/
theorem same_argument (hin : Inside u k s) (hs : Blank.Settled (s ++ u)) : Same (call .argument) u k s := by
  induction hn : s.length using Nat.strongRecOn generalizing s with
  | ind n ih =>
      have hitem {v : List Char} (hv : v <:+ s) (hin : Inside u k v) : Same argItem u k v := by
        refine same_item hin fun w hw hin hs => ih w.length ?_ hin hs rfl
        have hle := hv.length_le
        omega
      have hround {v : List Char} (hv : v <:+ s ∧ Inside u k v) : Same round u k v := by
        refine (same_space hv.2).maybe.seq fun w ns hw => ?_
        obtain ⟨ps, hb⟩ := balanced_maybe_space ⟨ns, hw⟩
        exact hitem ((List.suffix_append_self_iff.1 hb.suffix).trans hv.1) (hv.2.replace hb)
      have hnext {v w : List Char} {ns : List Node} (hv : v <:+ s ∧ Inside u k v)
          (hr : round.run Rule.run (v ++ u) = some (w ++ u, ns)) : w <:+ s ∧ Inside u k w := by
        obtain ⟨ps, hb⟩ := balanced_round ⟨ns, hr⟩
        exact ⟨(List.suffix_append_self_iff.1 hb.suffix).trans hv.1, hv.2.replace hb⟩
      refine .call (.seq (hitem List.suffix_rfl hin) fun v ns hv => ?_)
      have hb := balanced_argItem hs.comment hv
      exact .star rfl (fun _ => hround) (fun _ _ _ => hnext)
        ⟨List.suffix_append_self_iff.1 hb.suffix, hin.replace hb⟩

/-- Arguments that are taken up to the same parenthesis are the same. -/
theorem keeps_arguments : (call .arguments).Keeps u k v := by
  intro s ns h hl
  have h : Rule.arguments.run (s ++ u) = some (v ++ u, ns) := h
  obtain ⟨ms, hm, rfl⟩ := (Rule.run_node rfl).1 h
  have hlasts := hl _ (List.mem_append_left _ List.mem_cons_self) ⟨rfl, h⟩ rfl rfl rfl
  obtain ⟨x, ps, hopen, hb⟩ := balanced_arguments ⟨_, h⟩
  obtain ⟨x, rfl⟩ := exists_append_of_suffix (v := ')' :: v) hb.suffix
  obtain rfl : s = '(' :: x := eq_of_append_eq hopen
  obtain ⟨y, qs, hopen', hb'⟩ := balanced_arguments hlasts
  cases hopen'
  have hclosing (t : List Char) : Closing (')' :: v ++ t) := AtCloser.closing ⟨')', '(', v ++ t, rfl, rfl⟩
  have hin : Inside u k x := ⟨⟨')' :: v, ps, hb, hclosing u⟩, ')' :: v, qs, hb', hclosing k⟩
  exact Rule.run_replace hm h (group_replace rfl rfl hin (fun _ _ hv hs => same_argument hv hs) hm)

end SelectorSyntax.Bracket
