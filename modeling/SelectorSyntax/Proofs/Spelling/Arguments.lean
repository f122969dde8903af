import SelectorSyntax.Proofs.Spelling.Numbers

namespace SelectorSyntax.Selector.Spelling

open Grammar Expression Text OfNodes

variable {s t w : List Char} {ns : List Node}

/-! Groups: a bracket, an argument that may be missing, and the closer. -/

theorem run_group_eq_some {o c : Char} {r : Rule} (hb : body r = .exactly c) (hr : r.isSilent = false) :
    (group o r).run Rule.run s = some (t, ns) ↔
      ∃ s' u ms, s = o :: s' ∧ (maybe (call .argument)).run Rule.run (Blank.skip s') = some (u, ms) ∧
        Blank.skip u = c :: t ∧ ns = ms ++ [⟨r, c :: t, t, []⟩] := by
  constructor
  · intro h
    obtain ⟨s₁, ms₁, ks₁, h₁, g₁, rfl⟩ := run_seq_eq_some.1 h
    obtain ⟨s₂, ms₂, ks₂, h₂, g₂, rfl⟩ := run_seq_eq_some.1 g₁
    obtain ⟨s₃, ms, ks₃, h₃, g₃, rfl⟩ := run_seq_eq_some.1 g₂
    obtain ⟨s₄, ms₄, ms₅, h₄, h₅, rfl⟩ := run_seq_eq_some.1 g₃
    obtain ⟨rfl, rfl⟩ := run_exactly_eq_some.1 h₁
    rw [Blank.run_maybe_ws] at h₂ h₄
    cases h₂
    cases h₄
    obtain ⟨hs, rfl⟩ := (run_exactly_node hb hr).1 h₅
    rw [hs]
    exact ⟨s₁, s₃, ms, rfl, h₃, hs, rfl⟩
  · rintro ⟨s', u, ms, rfl, h, hu, rfl⟩
    have hclose : r.run (Blank.skip u) = some (t, [⟨r, c :: t, t, []⟩]) := by
      rw [hu]
      exact (run_exactly_node hb hr).2 ⟨rfl, rfl⟩
    refine run_seq_eq_some.2 ⟨s', [], _, run_exactly_cons o, ?_, rfl⟩
    refine run_seq_eq_some.2 ⟨Blank.skip s', [], _, Blank.run_maybe_ws s', ?_, rfl⟩
    refine run_seq_eq_some.2 ⟨u, ms, _, h, ?_, rfl⟩
    exact run_seq_eq_some.2 ⟨Blank.skip u, [], _, Blank.run_maybe_ws u, hclose, rfl⟩

/-- A text is one argument, if there is any, between blanks. -/
theorem run_text_eq_some : Rule.text.run s = some (t, ns) ↔
    ∃ u ms, (maybe (call .argument)).run Rule.run (Blank.skip s) = some (u, ms) ∧ Blank.skip u = [] ∧ t = [] ∧
      ns = [⟨.text, s, [], ms ++ [⟨.endOfInput, [], [], []⟩]⟩] := by
  constructor
  · intro h
    obtain ⟨ks, hk, rfl⟩ := (Rule.run_node rfl).1 h
    obtain ⟨s₁, ms₁, ks₁, h₁, g₁, rfl⟩ := run_seq_eq_some.1 hk
    obtain ⟨s₂, ms, ks₂, h₂, g₂, rfl⟩ := run_seq_eq_some.1 g₁
    obtain ⟨s₃, ms₃, ms₄, h₃, h₄, rfl⟩ := run_seq_eq_some.1 g₂
    rw [Blank.run_maybe_ws] at h₁ h₃
    cases h₁
    cases h₃
    obtain ⟨hu, rfl, rfl⟩ := Rule.run_endOfInput_eq_some.1 h₄
    exact ⟨s₂, ms, h₂, hu, rfl, rfl⟩
  · rintro ⟨u, ms, hm, hu, rfl, rfl⟩
    have hend : Rule.endOfInput.run (Blank.skip u) = some ([], [⟨.endOfInput, [], [], []⟩]) := by
      rw [hu]
      exact Rule.run_endOfInput_eq_some.2 ⟨rfl, rfl, rfl⟩
    refine (Rule.run_node rfl).2 ⟨_, run_seq_eq_some.2 ⟨Blank.skip s, [], _, Blank.run_maybe_ws s, ?_, rfl⟩, rfl⟩
    refine run_seq_eq_some.2 ⟨u, ms, _, hm, ?_, rfl⟩
    exact run_seq_eq_some.2 ⟨Blank.skip u, [], _, Blank.run_maybe_ws u, hend, rfl⟩

/-- The brackets of a group, the blanks inside them, and the argument that may stand between those. -/
theorem group_split {o c : Char} {r : Rule} (hb : body r = .exactly c) (hr : r.isSilent = false)
    (h : (group o r).run Rule.run s = some (t, ns)) :
    ∃ b₁ u b₂ ms, s = o :: (b₁ ++ (u ++ (b₂ ++ c :: t))) ∧ Blanks b₁ ∧ Blanks b₂ ∧ ns = ms ++ [⟨r, c :: t, t, []⟩] ∧
      (u = [] ∧ ms = [] ∨ Rule.argument.run (u ++ (b₂ ++ c :: t)) = some (b₂ ++ c :: t, ms)) := by
  obtain ⟨s', v, ms, rfl, hm, hv, rfl⟩ := (run_group_eq_some hb hr).1 h
  obtain ⟨b₁, hb₁, hs'⟩ := blanks_skip s'
  obtain ⟨b₂, hb₂, hv'⟩ := blanks_skip v
  rw [hv] at hv'
  subst hv'
  rcases run_maybe_eq_some.1 hm with hm | ⟨-, hu, rfl⟩
  · have hm : Rule.argument.run (Blank.skip s') = some (b₂ ++ c :: t, ms) := hm
    obtain ⟨u, hu⟩ := Rule.lawful_run.suffix hm
    rw [← hu] at hm hs'
    exact ⟨b₁, u, b₂, ms, congrArg (o :: ·) hs', hb₁, hb₂, rfl, Or.inr hm⟩
  · rw [← hu] at hs'
    exact ⟨b₁, [], b₂, [], congrArg (o :: ·) hs', hb₁, hb₂, rfl, Or.inl ⟨rfl, rfl⟩⟩

theorem isSilent_of_closer {r : Rule} (hr : r ∈ [.parenClose, .bracketClose]) : r.isSilent = false := by
  simp only [List.mem_cons, List.not_mem_nil, or_false] at hr
  rcases hr with rfl | rfl <;> rfl

/-! Items. -/

theorem isToken_of_mem {r : Rule} (hr : r ∈ [.string, .number, .ident, .argDelim]) :
    r.isToken = true := by
  simp only [List.mem_cons, List.not_mem_nil, or_false] at hr
  rcases hr with rfl | rfl | rfl | rfl <;> rfl

theorem delimiter_of_run (h : Rule.argDelim.run s = some (t, ns)) :
    ∃ c, s = c :: t ∧ isDelimiter c = true := by
  obtain ⟨ms, hm, -⟩ := (Rule.run_node rfl).1 h
  obtain ⟨hn, ⟨c, rfl⟩, -⟩ := run_butNot_eq_some.1 hm
  obtain ⟨hs, hw⟩ := run_choice_eq_none.1 hn
  have hs := run_char_eq_none.1 hs c t rfl
  have hw := run_char_eq_none.1 hw c t rfl
  refine ⟨c, rfl, ?_⟩
  rw [isDelimiter, hs, hw]
  rfl

theorem token_of_run {r : Rule} (hr : r ∈ [.string, .number, .ident, .argDelim])
    (h : r.run s = some (t, ns))
    (hs : s = w ++ t) : Token w := by
  simp only [List.mem_cons, List.not_mem_nil, or_false] at hr
  rcases hr with rfl | rfl | rfl | rfl
  · obtain ⟨v, hv, -⟩ := Quoted.run_string_iff_read.1 ⟨_, h⟩
    rw [hs] at hv
    have hw := Quoted.read_append hv []
    rw [List.append_nil] at hw
    exact .quoted hw
  · exact .number (number_of_run h hs)
  · obtain ⟨v, hv⟩ := Identifier.exists_decode h hs
    exact .identifier hv
  · obtain ⟨c, rfl, hc⟩ := delimiter_of_run h
    obtain rfl : w = [c] := (List.append_left_inj t).1 hs.symm
    exact .delimiter hc

theorem reads_token {r : Rule} (hr : r ∈ [.string, .number, .ident, .argDelim]) :
    Reads r item Item s := by
  intro t ns h
  have htok := isToken_of_mem hr
  obtain ⟨w, rfl, rfl, hw⟩ := run_token htok h
  refine ⟨w, _, rfl, rfl, rfl, fun x hx => ?_⟩
  rcases item_eq_ok hx with ⟨-, rfl⟩ | ⟨hr', -⟩ | ⟨hr', -⟩
  · rw [hw]
    exact .token (token_of_run hr h rfl)
  · obtain rfl : r = .argSpace := hr'
    cases htok
  · obtain rfl : r = .argGroup := hr'
    cases htok

/-- The items of an argument, which is between brackets. -/
abbrev argumentNode (n : Node) : Result (List Parameter) := items n.children

theorem group_items {o c : Char} {r : Rule} (hoc : (o, c) ∈ [('(', ')'), ('[', ']')])
    (hb : body r = .exactly c)
    (hr : r ∈ [.parenClose, .bracketClose])
    (ih : ∀ u, u.length < s.length → Reads .argument argumentNode Items u)
    (h : (group o r).run Rule.run s = some (t, ns)) :
    ∃ w, s = w ++ t ∧ s.take 1 = [o] ∧
      ∀ ps, groupItems ns = .ok ps → Item (.list (.text (String.ofList [o]) :: ps)) w := by
  obtain ⟨b₁, u, b₂, ms, rfl, hb₁, hb₂, rfl, hu⟩ := group_split hb (isSilent_of_closer hr) h
  have hclose {ps : List Parameter} (hps : groupItems [⟨r, c :: t, t, []⟩] = .ok ps) :
      ps = [.text (String.ofList [c])] := by
    obtain ⟨qs, rs, hrs, rfl, ⟨rfl, -⟩ | ⟨-, rfl⟩⟩ := groupItems_cons_eq_ok hps
    · simp at hr
    · cases hrs
      have htext : (⟨r, c :: t, t, []⟩ : Node).text = [c] := Place.between_append [c] t
      rw [htext]
      rfl
  refine ⟨o :: (b₁ ++ (u ++ (b₂ ++ [c]))), by simp, rfl, fun ps hps => ?_⟩
  rcases hu with ⟨rfl, rfl⟩ | hu
  · rw [hclose hps]
    exact Item.group hoc hb₁ .nil hb₂
  · have hlt : (u ++ (b₂ ++ c :: t)).length < (o :: (b₁ ++ (u ++ (b₂ ++ c :: t)))).length := by
      simp only [List.length_cons, List.length_append]
      omega
    obtain ⟨w, n, hw, rfl, hn, hread⟩ := ih _ hlt hu
    obtain rfl : u = w := (List.append_left_inj (b₂ ++ c :: t)).1 hw
    obtain ⟨qs, rs, hrs, rfl, ⟨-, hqs⟩ | ⟨hn', -⟩⟩ := groupItems_cons_eq_ok hps
    · rw [hclose hrs]
      exact Item.group hoc hb₁ (hread qs hqs) hb₂
    · rw [hn] at hn'
      simp at hn'

theorem reads_group (ih : ∀ u, u.length < s.length → Reads .argument argumentNode Items u) :
    Reads .argGroup item Item s := by
  intro t ns h
  obtain ⟨ms, hm, rfl⟩ := (Rule.run_node rfl).1 h
  have hitem {o c : Char} {r : Rule} (hoc : (o, c) ∈ [('(', ')'), ('[', ']')]) (hb : body r = .exactly c)
      (hr : r ∈ [.parenClose, .bracketClose]) (hm : (group o r).run Rule.run s = some (t, ms)) :
      ∃ w n, s = w ++ t ∧ [⟨.argGroup, s, t, ms⟩] = [n] ∧ n.rule = .argGroup ∧ ∀ x, item n = .ok x → Item x w := by
    obtain ⟨w, hw, hs, hread⟩ := group_items hoc hb hr ih hm
    refine ⟨w, _, hw, rfl, rfl, fun x hx => ?_⟩
    rcases item_eq_ok hx with ⟨hr', -⟩ | ⟨hr', -⟩ | ⟨-, ps, hps, rfl⟩
    · simp at hr'
    · cases hr'
    · rw [hs]
      exact hread ps hps
  rcases run_choice_eq_some.1 hm with hm | ⟨-, hm⟩
  · exact hitem (by simp) rfl (by simp) hm
  · exact hitem (by simp) rfl (by simp) hm

theorem reads_argItem (hg : Reads .argGroup item Item s) (h : argItem.run Rule.run s = some (t, ns)) :
    ∃ w n, s = w ++ t ∧ ns = [n] ∧ ∀ p, item n = .ok p → Item p w := by
  have hread {r : Rule} (hr : Reads r item Item s) (h : r.run s = some (t, ns)) :
      ∃ w n, s = w ++ t ∧ ns = [n] ∧ ∀ p, item n = .ok p → Item p w := by
    obtain ⟨w, n, hs, hn, -, hp⟩ := hr h
    exact ⟨w, n, hs, hn, hp⟩
  obtain ⟨e, he, h⟩ := run_choices_some h
  simp only [List.mem_cons, List.not_mem_nil, or_false] at he
  rcases he with rfl | rfl | rfl | rfl | rfl
  · exact hread (reads_token (by simp)) h
  · exact hread (reads_token (by simp)) h
  · exact hread (reads_token (by simp)) h
  · exact hread hg h
  · exact hread (reads_token (by simp)) h

/-- One round behind the first item: an item, or blanks and an item. -/
theorem more_step {u : List Char} {ks : List Node}
    (hg : ∀ u, u.length ≤ s.length → Reads .argGroup item Item u)
    (h : (seq (maybe (call .argSpace)) argItem).run Rule.run s = some (u, ks)) :
    ∃ w, s = w ++ u ∧ ∀ ms ps, items (ks ++ ms) = .ok ps →
      ∃ qs, items ms = .ok qs ∧ ∀ x, More qs x → More ps (w ++ x) := by
  obtain ⟨v, ms₁, ms₂, h₁, h₂, rfl⟩ := run_seq_eq_some.1 h
  rcases run_maybe_eq_some.1 h₁ with h₁ | ⟨-, rfl, rfl⟩
  · have h₁ : Rule.argSpace.run s = some (v, ms₁) := h₁
    obtain ⟨_, hws, rfl⟩ := (Rule.run_node rfl).1 h₁
    obtain ⟨b, hb, hne, rfl, -⟩ := ws_blanks hws
    obtain ⟨w, n, rfl, rfl, hn⟩ := reads_argItem (hg v (by simp)) h₂
    refine ⟨b ++ w, (List.append_assoc b w u).symm, fun ms ps hps => ?_⟩
    obtain ⟨p, rs, hp, hrs, rfl⟩ := items_cons_eq_ok hps
    obtain ⟨q, qs, hq, hqs, rfl⟩ := items_cons_eq_ok hrs
    rw [item] at hp
    cases hp
    refine ⟨qs, hqs, fun x hx => ?_⟩
    rw [List.append_assoc]
    exact .spaced hb hne (hn q hq) hx
  · obtain ⟨w, n, rfl, rfl, hn⟩ := reads_argItem (hg v (Nat.le_refl _)) h₂
    refine ⟨w, rfl, fun ms ps hps => ?_⟩
    obtain ⟨q, qs, hq, hqs, rfl⟩ := items_cons_eq_ok hps
    exact ⟨qs, hqs, fun x hx => .adjacent (hn q hq) hx⟩

theorem more_of_iterates (hg : ∀ u, u.length ≤ s.length → Reads .argGroup item Item u)
    (h : Iterates ((seq (maybe (call .argSpace)) argItem).run Rule.run) s t ns) :
    ∃ w, s = w ++ t ∧ ∀ ps, items ns = .ok ps → More ps w := by
  induction h with
  | stop =>
      refine ⟨[], rfl, fun ps hps => ?_⟩
      cases hps
      exact .nil
  | @next s u t ks ms hs _ ih =>
      have hle := (run_suffix Rule.lawful_run (seq (maybe (call .argSpace)) argItem) hs).length_le
      obtain ⟨w, rfl, hw⟩ := more_step hg hs
      obtain ⟨x, rfl, hx⟩ := ih fun v hv => hg v (Nat.le_trans hv hle)
      refine ⟨w ++ x, (List.append_assoc w x t).symm, fun ps hps => ?_⟩
      obtain ⟨qs, hqs, hmore⟩ := hw ms ps hps
      exact hmore x (hx qs hqs)

theorem reads_argument (hg : ∀ u, u.length ≤ s.length → Reads .argGroup item Item u) :
    Reads .argument argumentNode Items s := by
  intro t ns h
  obtain ⟨ms, hm, rfl⟩ := (Rule.run_node rfl).1 h
  obtain ⟨u, ms₁, ms₂, h₁, h₂, rfl⟩ := run_seq_eq_some.1 hm
  have hi := (run_star_eq_some Rule.lawful_run rfl).1 h₂
  obtain ⟨w, n, rfl, rfl, hn⟩ := reads_argItem (hg _ (Nat.le_refl _)) h₁
  obtain ⟨x, rfl, hx⟩ := more_of_iterates (fun v hv => hg v (by simp only [List.length_append]; omega)) hi
  refine ⟨w ++ x, _, (List.append_assoc w x t).symm, rfl, rfl, fun ps hps => ?_⟩
  obtain ⟨p, qs, hp, hqs, rfl⟩ := items_cons_eq_ok hps
  exact .cons (hn p hp) (hx qs hqs)

theorem reads_argument_all (s : List Char) : Reads .argument argumentNode Items s := by
  induction hn : s.length using Nat.strongRecOn generalizing s with
  | ind n ih =>
      refine reads_argument fun u hu => reads_group fun v hv => ih v.length (by omega) v rfl

end SelectorSyntax.Selector.Spelling
