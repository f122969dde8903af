import SelectorSyntax.Proofs.Assembly.Bare
import SelectorSyntax.Proofs.Bracket.Inside
import SelectorSyntax.Proofs.Spelling.NthText

namespace SelectorSyntax.Selector.Spelling

open Grammar Expression Text OfNodes

variable {k s t w : List Char} {name : String} {ns ms : List Node} {v : Parameter} {ps : List Parameter}

/-! A text that is read by itself is read between parentheses. -/

/-- The items of a text that is an argument and blanks. -/
def ItemsOf (t : List Char) (ps : List Parameter) : Prop :=
  ∃ u root, Rule.text.run t = some (u, [root]) ∧ argumentItems root = .ok ps

/-- The nodes of an argument that may be missing, and the items that they are read as. -/
inductive ReadAs : List Node → List Parameter → Prop
  | nothing : ReadAs [] []
  | argument {s t : List Char} {ns : List Node} {ps : List Parameter} :
    (∀ n ∈ ns, n.IsMatch) → items ns = .ok ps → ReadAs [⟨.argument, s, t, ns⟩] ps

theorem ReadAs.of_bare (h : ReadAs ns ps) (hb : Node.bareOfAll ms = Node.bareOfAll ns) (hms : ∀ m ∈ ms, m.IsMatch) :
    ReadAs ms ps := by
  cases h with
  | nothing =>
      rw [Node.bareOfAll_eq_nil hb]
      exact .nothing
  | @argument s t ns ps hns hps =>
      obtain ⟨⟨r, u, v, ks⟩, ks', rfl, hm, hks'⟩ := Node.bareOfAll_eq_cons hb
      obtain rfl := Node.bareOfAll_eq_nil hks'
      obtain ⟨hr, -, hks⟩ := Node.bare_inj hm
      obtain rfl : r = .argument := hr
      have hmatch : ∀ k ∈ ks, k.IsMatch := fun k hk => ((hms _ List.mem_cons_self).child hk).2
      refine .argument hmatch (toOption_eq_some.1 ?_)
      have hks : Node.bareOfAll ks = Node.bareOfAll ns := hks
      rw [← items_bare ks hmatch, hks, items_bare ns hns, hps]
      rfl

theorem argumentItems_none {r : Rule} {m : Node} (hm : m.rule ≠ .argument) :
    argumentItems ⟨r, s, t, [m]⟩ = .ok [] := by
  have hc : child? ⟨r, s, t, [m]⟩ .argument = none := by simp [child?, hm]
  rw [argumentItems, hc]

theorem argumentItems_some {r : Rule} {u v : List Char} :
    argumentItems ⟨r, s, t, ⟨.argument, u, v, ms⟩ :: ns⟩ = items ms := by
  have hc : child? ⟨r, s, t, ⟨.argument, u, v, ms⟩ :: ns⟩ .argument = some ⟨.argument, u, v, ms⟩ := by simp [child?]
  rw [argumentItems, hc]

theorem ReadAs.argumentItems {r : Rule} {m : Node} (h : ReadAs ms ps) (hm : m.rule ≠ .argument) :
    OfNodes.argumentItems ⟨r, s, t, ms ++ [m]⟩ = .ok ps := by
  cases h with
  | nothing => exact argumentItems_none hm
  | argument _ hps => exact argumentItems_some.trans hps

/-- A match has no more brackets inside one another than the items that it is read as. -/
theorem ReadAs.nesting_le (h : ReadAs ms ps) : Node.nestingOfAll ms ≤ Parameter.depthOfAll ps := by
  cases h with
  | nothing => exact Nat.le_refl 0
  | argument hns hps =>
      rw [Node.nestingOfAll_cons, Node.nesting_plain rfl, Node.nestingOfAll_nil, Nat.max_zero]
      exact nesting_items _ hns hps

/-- All of a text but blanks is an argument, if there is one. -/
theorem ItemsOf.reads (h : ItemsOf t ps) :
    ∃ u ms, (maybe (call .argument)).run Rule.run (Blank.skip t) = some (u, ms) ∧ Blank.skip u = [] ∧ ReadAs ms ps := by
  obtain ⟨x, root, hrun, hps⟩ := h
  obtain ⟨u, ms, hm, hu, -, hroot⟩ := run_text_eq_some.1 hrun
  cases hroot
  refine ⟨u, ms, hm, hu, ?_⟩
  rcases run_maybe_eq_some.1 hm with hm | ⟨-, -, rfl⟩
  · obtain ⟨⟨r, u, v, ks⟩, rfl, hr, -, -, hmatch⟩ := Rule.isMatch_of_run (r := .argument) rfl hm
    obtain rfl : r = .argument := hr
    exact .argument (fun k hk => (hmatch.child hk).2) (argumentItems_some.symm.trans hps)
  · have hnone := (argumentItems_none (by simp)).symm.trans hps
    cases hnone
    exact .nothing

/-- A text that is read by itself is read inside brackets too. -/
theorem inside_of_itemsOf {P : List Char → Prop} (h : ItemsOf t ps) (hP : Bracket.Guards P [] k) (ht : P t)
    (hk : Closing k) : Bracket.Inside [] k t := by
  obtain ⟨x, root, hrun, -⟩ := h
  obtain rfl := Bracket.eq_nil_of_run (Or.inr rfl) hrun
  have hb := (Bracket.paired_of_run .text t trivial rfl rfl hrun).balanced
  rw [← List.append_nil t, ← List.nil_append []] at hb
  obtain ⟨qs, hq⟩ := Bracket.Balanced.replace (u := []) hP ht hb
  exact ⟨⟨[], _, hb, fun c r h => by cases h⟩, [], qs, hq, hk⟩

/-- Brackets around a text that is read by itself are a group, read as what they are around. -/
theorem run_group_of_itemsOf {o c : Char} {q : Rule} {r : List Char} (hb : body q = .exactly c)
    (hs : q.isSilent = false) (h : ItemsOf t ps) (hin : Bracket.Inside [] (c :: r) t) :
    ∃ ms, (group o q).run Rule.run (o :: (t ++ c :: r)) = some (r, ms ++ [⟨q, c :: r, r, []⟩]) ∧
      ReadAs ms ps := by
  obtain ⟨u, ms, hm, hu, hread⟩ := h.reads
  rw [← List.append_nil t] at hm
  obtain ⟨y, ms', hm', hy, hbare⟩ := Bracket.maybe_argument_replace (z := []) hin
    (fun _ _ hv hs => Bracket.same_argument hv hs) hm hu
  refine ⟨ms', (run_group_eq_some hb hs).2 ⟨t ++ c :: r, y, ms', rfl, hm', hy, rfl⟩, hread.of_bare hbare fun m hmem => ?_⟩
  exact (Expression.mem_of_run (e := maybe (call .argument)) (by decide) hm' hmem).2

/-- What is read by itself is read between parentheses, with no more brackets inside one another than in
what it is read as. -/
theorem run_arguments (hs : Uncommented t) (h : ItemsOf t ps) (r : List Char) : ∃ ms,
    Rule.arguments.run ('(' :: (t ++ ')' :: r)) = some (r, [⟨.arguments, '(' :: (t ++ ')' :: r), r, ms⟩]) ∧
      argumentItems ⟨.arguments, '(' :: (t ++ ')' :: r), r, ms⟩ = .ok ps ∧
      Node.nestingOfAll ms ≤ Parameter.depthOfAll ps := by
  have hk : Closing (')' :: r) := fun c x h => Or.inl (List.cons.inj h).1.symm
  have hin := inside_of_itemsOf h (Bracket.guards_uncommented hk) hs hk
  obtain ⟨ms, hm, hread⟩ := run_group_of_itemsOf (q := .parenClose) rfl rfl h hin
  refine ⟨_, (Rule.run_node rfl).2 ⟨_, hm, rfl⟩, hread.argumentItems nofun, ?_⟩
  rw [if_neg (by decide), Node.nestingOfAll_append, Node.nestingOfAll_cons, Node.nesting_plain rfl,
    Node.nestingOfAll_nil, Nat.max_self, Nat.max_zero]
  exact hread.nesting_le

theorem itemsOf_parse {d : Nat} (h : parseTextFragment t d = .ok v) :
    ∃ ps, ItemsOf t ps ∧ v = .list ps := by
  obtain ⟨root, ps, hroot, hps, rfl⟩ := parseTextFragment_eq_ok h
  obtain ⟨-, u, hrun⟩ := matchRoot_eq_ok hroot
  exact ⟨ps, ⟨u, root, hrun, hps⟩, rfl⟩

theorem itemsOf_of_not_special (hs : ∀ c ∈ t, c ∉ special) (hne : t ≠ []) :
    ∃ ps, ItemsOf t ps ∧ Parameter.depthOfAll ps = 0 := by
  obtain ⟨ns, ps, hrun, hps, hd⟩ := run_argument_of_not_special hs hne
  have htext : Rule.text.run t = some ([], [⟨.text, t, [], [⟨.argument, t, [], ns⟩] ++ [⟨.endOfInput, [], [], []⟩]⟩]) := by
    refine run_text_eq_some.2 ⟨[], _, run_maybe_eq_some.2 (Or.inl ?_), Blank.skip_nil, rfl, rfl⟩
    rwa [(settled_of_not_special hs).skip_eq]
  exact ⟨ps, ⟨[], _, htext, argumentItems_some.trans hps⟩, hd⟩

/-- An argument that an escaped `nth` name has is read a second time, as those of plain names are. -/
theorem escapedNthParameter_eq (h : Selector.Nth t) {n : Node} (hn : n.text = '(' :: (t ++ [')'])) :
    escapedNthParameter n = .ok (.text (String.ofList t)) := by
  obtain ⟨m, v, hrun, hv, ht⟩ := h.run_nthArguments
  rw [escapedNthParameter, hn, Rule.parse, hrun]
  simp only [hv]
  rw [ht]
  exact h.nthText_eq _

theorem writes_argument (hv : WritableParameter name v) (hw : encoded.argument name v w)
    (k : List Char) :
    Writes .arguments (pseudoParameter name) (fun d => max 1 v.depth ≤ d) v w k := by
  obtain ⟨t, rfl, ht⟩ := hw
  have happend : '(' :: (t ++ [')']) ++ k = '(' :: (t ++ ')' :: k) := by simp
  have htext (ms : List Node) :
      (⟨.arguments, '(' :: (t ++ ')' :: k), k, ms⟩ : Node).text = '(' :: (t ++ [')']) := by
    rw [← happend]
    exact Place.between_append _ k
  rw [WritableParameter] at hv
  split at ht
  next hname =>
    rw [if_pos hname] at hv
    obtain ⟨u, rfl, hnth⟩ := hv
    have hut : u.toList = t := by
      cases ht
      exact String.toList_ofList
    rw [hut] at hnth
    obtain ⟨ps, hps, hd⟩ := itemsOf_of_not_special hnth.not_special hnth.ne_nil
    obtain ⟨ms, hrun, -, hn⟩ := run_arguments (uncommented_of_not_special hnth.not_special) hps k
    refine ⟨_, by rw [happend]; exact hrun, rfl, ?_, fun d hd' => ?_⟩
    · rw [pseudoParameter]
      simp only [hname, if_true]
      rw [escapedNthParameter_eq hnth (htext ms), ht]
    · rw [Node.nesting_bracketed rfl]
      omega
  next hname =>
    obtain ⟨hs, d, hparse⟩ := ht
    obtain ⟨ps, hps, rfl⟩ := itemsOf_parse hparse
    obtain ⟨ms, hrun, hitems, hn⟩ := run_arguments hs hps k
    refine ⟨_, by rw [happend]; exact hrun, rfl, ?_, fun d hd => ?_⟩
    · rw [pseudoParameter]
      simp only [hname, Bool.false_eq_true, if_false]
      rw [hitems]
      rfl
    · rw [Parameter.depth] at hd
      rw [Node.nesting_bracketed rfl]
      omega

end SelectorSyntax.Selector.Spelling
