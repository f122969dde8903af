import SelectorSyntax.Proofs.Spelling.Arguments

namespace SelectorSyntax.Selector.Spelling

open Grammar Expression Text OfNodes CharClass

variable {s t w : List Char} {ns : List Node}

/-! Names that take a number are plain text, so they decode to themselves. -/

theorem of_toLower {p : Char → Bool} (hp : ∀ c, c.isAlpha = true → p c = true) {c : Char}
    (h : p c.toLower = true) : p c = true := by
  rw [Char.toLower] at h
  split at h
  next hc =>
    apply hp
    rw [Char.isAlpha, Char.isUpper]
    simp only [Bool.or_eq_true, decide_eq_true_eq]
    exact Or.inl hc
  next => exact h

theorem isIdentStart_of_isAlpha (c : Char) (h : c.isAlpha = true) : isIdentStart c = true := by
  rw [isIdentStart, h]
  rfl

theorem isIdentChar_of_isAlpha (c : Char) (h : c.isAlpha = true) : isIdentChar c = true := by
  rw [isIdentChar, isIdentStart_of_isAlpha c h]
  rfl

theorem readTail_plain (hw : ∀ c ∈ w, isIdentChar c = true) : Identifier.readTail w = .ok (w, []) := by
  induction w with
  | nil => exact Identifier.readTail_nil
  | cons c w ih =>
      have hw' := ih fun d hd => hw d (List.mem_cons_of_mem c hd)
      exact (Identifier.readTail_char (hw c List.mem_cons_self)).trans (Identifier.prepend_eq_ok.2 ⟨w, hw', rfl⟩)

theorem decode_plain {c : Char} (hc : isIdentStart c = true) (hw : ∀ d ∈ w, isIdentChar d = true) :
    Identifier.decode (c :: w) = .ok (c :: w) := by
  have hd : (c :: w).head? ≠ some '-' := by
    rintro ⟨⟩
    cases hc
  have hb : c ≠ '\\' := by
    rintro rfl
    cases hc
  refine Identifier.decode_of_read ((Identifier.read_start hd).trans ?_)
  rw [Identifier.readHead, if_neg hb, if_pos hc]
  exact Identifier.prepend_eq_ok.2 ⟨w, readTail_plain hw, rfl⟩

/-- The names are all in lower case and begin with a letter. -/
theorem pseudoNames_plain : ∀ a ∈ AnPlusB.pseudoNames, ∃ c u, AnPlusB.foldCase a.toList = c :: u ∧
    isIdentStart c = true ∧ u.all isIdentChar = true := by
  intro a ha
  simp only [AnPlusB.pseudoNames, List.mem_cons, List.not_mem_nil, or_false] at ha
  rcases ha with rfl | rfl | rfl | rfl | rfl | rfl <;> exact ⟨'n', _, rfl, rfl, rfl⟩

theorem decode_nthName {a : String} (ha : a ∈ AnPlusB.pseudoNames)
    (hw : AnPlusB.foldCase w = AnPlusB.foldCase a.toList) : Identifier.decode w = .ok w := by
  obtain ⟨c, u, hfold, hc, hu⟩ := pseudoNames_plain a ha
  rw [hfold] at hw
  obtain ⟨d, v, rfl, rfl, rfl⟩ := List.map_eq_cons_iff.1 hw
  refine decode_plain (of_toLower isIdentStart_of_isAlpha hc) fun e he => of_toLower isIdentChar_of_isAlpha ?_
  exact List.all_eq_true.1 hu _ (List.mem_map_of_mem he)

theorem run_nthName (h : Rule.nthName.run s = some (t, ns)) :
    ∃ w, s = w ++ t ∧ ns = [⟨.nthName, s, t, []⟩] ∧ (⟨.nthName, s, t, []⟩ : Node).text = w ∧
      Identifier.decode w = .ok w ∧ AnPlusB.isPseudoName (String.ofList w) = true := by
  obtain ⟨w, rfl, hn, hw⟩ := run_token rfl h
  refine ⟨w, rfl, hn, hw, ?_⟩
  obtain ⟨ms, hm, -⟩ := (Rule.run_node rfl).1 h
  obtain ⟨u, _, _, h₁, h₂, -⟩ := run_seq_eq_some.1 hm
  obtain ⟨-, rfl, -⟩ := run_present_eq_some.1 h₂
  obtain ⟨e, he, h₁⟩ := run_choices_some h₁
  obtain ⟨a, ha, rfl⟩ := List.mem_map.1 he
  have ha : a ∈ AnPlusB.pseudoNames := by
    simp only [List.mem_cons, List.not_mem_nil, or_false] at ha
    rcases ha with rfl | rfl | rfl | rfl | rfl | rfl <;> decide
  obtain ⟨x, hx, hf⟩ := run_caseless h₁
  obtain rfl : w = x := (List.append_left_inj t).1 hx
  refine ⟨decode_nthName ha hf, List.any_eq_true.2 ⟨a, ha, ?_⟩⟩
  rw [String.toList_ofList, hf, decide_eq_true rfl]

/-- The argument that selects siblings by number, and the node of what stands between its parentheses. -/
theorem run_nthArguments (h : Rule.nthArguments.run s = some (t, ns)) :
    ∃ b₁ x b₂ n v, s = '(' :: (b₁ ++ (x ++ (b₂ ++ ')' :: t))) ∧ Blanks b₁ ∧ Nth x ∧ Blanks b₂ ∧ ns = [n] ∧
      n.rule = .nthArguments ∧ child? n .nthValue = some v ∧ v.text = x := by
  obtain ⟨ms, hm, rfl⟩ := (Rule.run_node rfl).1 h
  obtain ⟨s₁, ms₁, ks₁, h₁, g₁, rfl⟩ := run_seq_eq_some.1 hm
  obtain ⟨s₂, ms₂, ks₂, h₂, g₂, rfl⟩ := run_seq_eq_some.1 g₁
  obtain ⟨s₃, ms₃, ks₃, h₃, g₃, rfl⟩ := run_seq_eq_some.1 g₂
  obtain ⟨s₄, ms₄, ms₅, h₄, h₅, rfl⟩ := run_seq_eq_some.1 g₃
  have h₅ : Rule.parenClose.run s₄ = some (t, ms₅) := h₅
  have h₃ : Rule.nthValue.run s₂ = some (s₃, ms₃) := h₃
  obtain ⟨rfl, rfl⟩ := run_exactly_eq_some.1 h₁
  obtain ⟨b₁, hb₁, rfl, rfl⟩ := maybe_ws_blanks h₂
  obtain ⟨x, rfl, rfl, hx⟩ := run_token rfl h₃
  obtain ⟨rfl, rfl⟩ := (run_exactly_node rfl rfl).1 h₅
  obtain ⟨b₂, hb₂, rfl, rfl⟩ := maybe_ws_blanks h₄
  exact ⟨b₁, x, b₂, _, _, rfl, hb₁, nth_of_run h₃ rfl, hb₂, rfl, rfl, rfl, hx⟩

theorem argument_of_nthText {name : String} {place x b₁ b₂ : List Char} {v : Parameter}
    (hname : AnPlusB.isPseudoName name = true) (hb₁ : Blanks b₁) (hx : Nth x) (hb₂ : Blanks b₂)
    (h : nthText place x = .ok v) : Argument name v ('(' :: (b₁ ++ (x ++ (b₂ ++ [')'])))) := by
  obtain ⟨rfl, y, hy⟩ := nthText_eq_ok h
  exact .nth hname hb₁ hx hb₂ hy

theorem reads_nthArguments {name : String} (hname : AnPlusB.isPseudoName name = true) :
    Reads .nthArguments (pseudoParameter name) (Argument name) s := by
  intro t ns h
  obtain ⟨b₁, x, b₂, n, v, rfl, hb₁, hx, hb₂, rfl, hn, hv, hvx⟩ := run_nthArguments h
  refine ⟨'(' :: (b₁ ++ (x ++ (b₂ ++ [')']))), n, by simp, rfl, hn, fun p hp => ?_⟩
  rw [pseudoParameter, hn] at hp
  simp only [nthParameter, hv] at hp
  rw [hvx] at hp
  exact argument_of_nthText hname hb₁ hx hb₂ hp

/-- Behind an escaped name the text of the argument is read once more, as one that selects siblings by number. -/
theorem argument_of_escaped {name : String} {n : Node} {v : Parameter} (hname : AnPlusB.isPseudoName name = true)
    (h : escapedNthParameter n = .ok v) : Argument name v n.text := by
  obtain ⟨m, k, hm, hk, hv⟩ := escapedNthParameter_eq_ok h
  obtain ⟨a₁, x, a₂, n', k', hs, ha₁, hx, ha₂, hn', -, hk', hkx⟩ := run_nthArguments hm
  cases hn'
  cases hk.symm.trans hk'
  rw [hkx] at hv
  rw [hs]
  exact argument_of_nthText hname ha₁ hx ha₂ hv

/-- What stands between the parentheses is read as the items of the one argument there is, if there is one. -/
theorem items_of_arguments {u w place : List Char} {ks : List Node} {ps : List Parameter}
    (hu : u = [] ∧ ks = [] ∨ Rule.argument.run (u ++ w) = some (w, ks))
    (h : argumentItems ⟨.arguments, place, t, ks ++ [⟨.parenClose, ')' :: t, t, []⟩]⟩ = .ok ps) : Items ps u := by
  rcases hu with ⟨rfl, rfl⟩ | hu
  · cases h
    exact .nil
  · obtain ⟨x, n, hx, rfl, hn, hread⟩ := reads_argument_all _ hu
    obtain rfl : u = x := List.append_cancel_right hx
    have hchild : child? ⟨.arguments, place, t, [n] ++ [⟨.parenClose, ')' :: t, t, []⟩]⟩ .argument = some n := by
      rw [child?, List.singleton_append, List.find?_cons, hn]
      rfl
    rw [argumentItems] at h
    simp only [hchild] at h
    exact hread ps h

theorem reads_arguments (name : String) :
    Reads .arguments (pseudoParameter name) (Argument name) s := by
  intro t ns h
  obtain ⟨ms, hm, rfl⟩ := (Rule.run_node rfl).1 h
  obtain ⟨b₁, u, b₂, ks, rfl, hb₁, hb₂, rfl, hu⟩ := group_split rfl rfl hm
  refine ⟨'(' :: (b₁ ++ (u ++ (b₂ ++ [')']))), _, by simp, rfl, rfl, fun p hp => ?_⟩
  rcases pseudoParameter_eq_ok hp with ⟨⟨⟩, -⟩ | ⟨-, ⟨hname, hp⟩ | ⟨hname, ps, hps, rfl⟩⟩
  · have happend : '(' :: (b₁ ++ (u ++ (b₂ ++ ')' :: t))) = '(' :: (b₁ ++ (u ++ (b₂ ++ [')']))) ++ t := by simp
    have hp := argument_of_escaped hname hp
    rwa [Node.text, happend, Place.between_append] at hp
  · exact .list hname hb₁ (items_of_arguments hu hps) hb₂

theorem pseudo_bare {n m : Node} {p : Selector.Pseudo} (hn : n.children = [m])
    (h : OfNodes.pseudo n = .ok p) :
    pseudoName m = .ok p.name ∧ p = ⟨p.name, none⟩ := by
  obtain ⟨k, ks, hch, hname, hpar⟩ := pseudo_eq_ok h
  rw [hn] at hch
  cases hch
  rcases hpar with ⟨-, hpar⟩ | ⟨a, as, v, ha, -, -⟩
  · exact ⟨hname, congrArg (Selector.Pseudo.mk p.name) hpar⟩
  · cases ha

theorem pseudo_function {n m a : Node} {p : Selector.Pseudo} (hn : n.children = [m, a])
    (h : OfNodes.pseudo n = .ok p) :
    pseudoName m = .ok p.name ∧ ∃ v, pseudoParameter p.name a = .ok v ∧ p = ⟨p.name, some v⟩ := by
  obtain ⟨k, ks, hch, hname, hpar⟩ := pseudo_eq_ok h
  rw [hn] at hch
  cases hch
  rcases hpar with ⟨ha, -⟩ | ⟨b, bs, v, hb, hv, hpar⟩
  · cases ha
  · cases hb
    exact ⟨hname, v, hv, congrArg (Selector.Pseudo.mk p.name) hpar⟩

/-- What stands behind the colons of a pseudo-class or pseudo-element. -/
theorem pseudo_of_run (h : pseudoTail.run Rule.run s = some (t, ns)) :
    ∃ w, s = w ++ t ∧ ∀ n : Node, n.children = ns → ∀ p, OfNodes.pseudo n = .ok p → free.Pseudo p w := by
  rcases run_choice_eq_some.1 h with h | ⟨-, h⟩
  · obtain ⟨s₁, ms₁, ms₂, h₁, h₂, rfl⟩ := run_seq_eq_some.1 h
    have h₁ : Rule.nthName.run s = some (s₁, ms₁) := h₁
    have h₂ : Rule.nthArguments.run s₁ = some (t, ms₂) := h₂
    obtain ⟨w, rfl, rfl, hw, hdec, hname⟩ := run_nthName h₁
    obtain ⟨x, a, rfl, rfl, -, hread⟩ := reads_nthArguments hname h₂
    refine ⟨w ++ x, (List.append_assoc w x t).symm, fun n hn p hp => ?_⟩
    obtain ⟨hpn, v, hv, hpv⟩ := pseudo_function hn hp
    rw [pseudoName, hw] at hpn
    have hpn : String.ofList w = p.name := Except.ok.inj hpn
    rw [← hpn] at hv hpv
    rw [hpv]
    exact .function (hdec.trans (by rw [String.toList_ofList])) (hread v hv)
  · obtain ⟨s₁, ms₁, ks₁, h₁, g₁, rfl⟩ := run_seq_eq_some.1 h
    obtain ⟨s₂, ms₂, ms₃, h₂, h₃, rfl⟩ := run_seq_eq_some.1 g₁
    obtain ⟨-, rfl, rfl⟩ := run_absent_eq_some.1 h₁
    have h₂ : Rule.ident.run s₁ = some (s₂, ms₂) := h₂
    obtain ⟨w, m, rfl, rfl, hm, hid⟩ := reads_ident h₂
    have hname {name : String} (hp : pseudoName m = .ok name) : free.identifier name w := by
      rw [pseudoName, hm] at hp
      exact hid _ hp
    rcases run_maybe_eq_some.1 h₃ with h₃ | ⟨-, rfl, rfl⟩
    · have h₃ : Rule.arguments.run s₂ = some (t, ms₃) := h₃
      obtain ⟨x, a, rfl, rfl, -, -⟩ := reads_arguments "" h₃
      refine ⟨w ++ x, (List.append_assoc w x t).symm, fun n hn p hp => ?_⟩
      obtain ⟨hpn, v, hv, hpv⟩ := pseudo_function hn hp
      obtain ⟨y, b, hy, hb, -, hread⟩ := reads_arguments p.name h₃
      obtain rfl : x = y := (List.append_left_inj t).1 hy
      cases hb
      rw [hpv]
      exact .function (hname hpn) (hread v hv)
    · refine ⟨w, rfl, fun n hn p hp => ?_⟩
      obtain ⟨hpn, hpv⟩ := pseudo_bare hn hp
      rw [hpv]
      exact .bare (hname hpn)

end SelectorSyntax.Selector.Spelling
