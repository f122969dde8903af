import SelectorSyntax.Proofs.Grammar.Unfold

namespace SelectorSyntax.Grammar

open Expression

/-- The rules whose nodes a match of an expression may have. -/
def Expression.callees : Expression → List Rule
  | empty | char _ | absent _ => []
  | seq e f | choice e f => e.callees ++ f.callees
  | star e => e.callees
  | call r => [r]

/-- The rules of the nodes that a match may have, for each way to match. Repetitions are taken to have
none. -/
def Expression.shapes : Expression → List (List Rule)
  | empty | char _ | absent _ | star _ => [[]]
  | seq e f => e.shapes.flatMap fun x => f.shapes.map (x ++ ·)
  | choice e f => (e.shapes ++ f.shapes).eraseDups
  | call r => [[r]]

/-- Whether all that is repeated is text. -/
def Expression.repeatsText : Expression → Bool
  | star e => e.callFree
  | seq e f | choice e f => e.repeatsText && f.repeatsText
  | _ => true

/-- The node is what its rule makes of the text where it starts. -/
def Node.IsMatch (n : Node) : Prop := n.rule.isSilent = false ∧ n.rule.run n.start = some (n.stop, [n])

mutual

/-- A node and all the nodes inside it. -/
def Node.family : Node → List Node
  | ⟨rule, start, stop, children⟩ => ⟨rule, start, stop, children⟩ :: Node.familyOfAll children

def Node.familyOfAll : List Node → List Node
  | [] => []
  | n :: ns => n.family ++ Node.familyOfAll ns

end

/-- The nodes stand one behind another in the text from one place to a later one. -/
inductive Ordered : List Char → List Char → List Node → Prop
  | nil {s t} : t <:+ s → Ordered s t []
  | cons {s t n ns} : n.start <:+ s → n.stop <:+ n.start → Ordered n.stop t ns → Ordered s t (n :: ns)

variable {e : Expression} {n m : Node} {r q : Rule} {s t u : List Char} {ns ms : List Node}

theorem mem_repeated {m : Matcher} (k : Nat) (h : n ∈ (repeated m k s).2) :
    ∃ u t ns, m u = some (t, ns) ∧ n ∈ ns := by
  induction k generalizing s with
  | zero => cases h
  | succ k ih =>
      rw [repeated] at h
      split at h
      next => cases h
      next t ns ht =>
        rcases List.mem_append.1 h with h | h
        · exact ⟨s, t, ns, ht, h⟩
        · exact ih h

/-- The rules of the grammar call no silent rule, so that each call is seen as one node. -/
theorem Rule.callees_silent (h : r ∈ (body q).callees) : r.isSilent = false := by
  have hall (q : Rule) : (body q).callees.all (fun r => !r.isSilent) = true := by cases q <;> rfl
  simpa using List.all_eq_true.1 (hall q) r h

theorem Rule.isMatch_of_run (hr : r.isSilent = false) (h : r.run s = some (t, ns)) :
    ∃ n, ns = [n] ∧ n.rule = r ∧ n.start = s ∧ n.stop = t ∧ n.IsMatch := by
  obtain ⟨ms, -, rfl⟩ := (Rule.run_node hr).1 h
  exact ⟨_, rfl, rfl, rfl, rfl, hr, h⟩

theorem Expression.mem_of_run (he : ∀ r ∈ e.callees, r.isSilent = false) (h : e.run Rule.run s = some (t, ns))
    (hn : n ∈ ns) : n.rule ∈ e.callees ∧ n.IsMatch := by
  induction e generalizing s t ns with
  | empty =>
      cases h
      cases hn
  | char p =>
      obtain ⟨c, -, -, rfl⟩ := run_char_eq_some.1 h
      cases hn
  | seq e f ihe ihf =>
      rw [callees, List.forall_mem_append] at he
      obtain ⟨u, ms, ks, hu, hv, rfl⟩ := run_seq_eq_some.1 h
      rw [callees, List.mem_append]
      rcases List.mem_append.1 hn with hn | hn
      · exact (ihe he.1 hu hn).imp_left Or.inl
      · exact (ihf he.2 hv hn).imp_left Or.inr
  | choice e f ihe ihf =>
      rw [callees, List.forall_mem_append] at he
      rw [callees, List.mem_append]
      rcases run_choice_eq_some.1 h with h | ⟨-, h⟩
      · exact (ihe he.1 h hn).imp_left Or.inl
      · exact (ihf he.2 h hn).imp_left Or.inr
  | star e ih =>
      have hns : (repeated (e.run Rule.run) (rounds s) s).2 = ns := congrArg Prod.snd (Option.some.inj h)
      rw [← hns] at hn
      obtain ⟨u, v, ms, hm, hn⟩ := mem_repeated _ hn
      exact ih he hm hn
  | absent e =>
      obtain ⟨-, -, rfl⟩ := run_absent_eq_some.1 h
      cases hn
  | call r =>
      have hr := he r (List.mem_singleton.2 rfl)
      obtain ⟨m, rfl, rfl, -, -, hm⟩ := Rule.isMatch_of_run hr h
      rw [List.mem_singleton] at hn
      subst hn
      exact ⟨List.mem_singleton.2 rfl, hm⟩

theorem Expression.shape_of_run (he : ∀ r ∈ e.callees, r.isSilent = false) (hx : e.repeatsText = true)
    (h : e.run Rule.run s = some (t, ns)) : ns.map Node.rule ∈ e.shapes := by
  induction e generalizing s t ns with
  | empty =>
      cases h
      exact List.mem_singleton.2 rfl
  | char p =>
      obtain ⟨c, -, -, rfl⟩ := run_char_eq_some.1 h
      exact List.mem_singleton.2 rfl
  | seq e f ihe ihf =>
      rw [callees, List.forall_mem_append] at he
      obtain ⟨hxe, hxf⟩ := Bool.and_eq_true_iff.1 hx
      obtain ⟨u, ms, ks, hu, hv, rfl⟩ := run_seq_eq_some.1 h
      rw [shapes, List.map_append]
      exact List.mem_flatMap.2 ⟨_, ihe he.1 hxe hu, List.mem_map_of_mem (ihf he.2 hxf hv)⟩
  | choice e f ihe ihf =>
      rw [callees, List.forall_mem_append] at he
      obtain ⟨hxe, hxf⟩ := Bool.and_eq_true_iff.1 hx
      rw [shapes, List.mem_eraseDups, List.mem_append]
      rcases run_choice_eq_some.1 h with h | ⟨-, h⟩
      · exact Or.inl (ihe he.1 hxe h)
      · exact Or.inr (ihf he.2 hxf h)
  | star e =>
      obtain rfl := run_callFree (e := star e) hx h
      exact List.mem_singleton.2 rfl
  | absent e =>
      obtain ⟨-, -, rfl⟩ := run_absent_eq_some.1 h
      exact List.mem_singleton.2 rfl
  | call r =>
      obtain ⟨m, rfl, rfl, -⟩ := Rule.isMatch_of_run (he r (List.mem_singleton.2 rfl)) h
      exact List.mem_singleton.2 rfl

theorem Ordered.extend (h : Ordered t u ns) (hs : t <:+ s) : Ordered s u ns := by
  cases h with
  | nil h => exact .nil (h.trans hs)
  | cons h hn hns => exact .cons (h.trans hs) hn hns

theorem Ordered.append (h : Ordered s t ns) (h' : Ordered t u ms) : Ordered s u (ns ++ ms) := by
  induction h with
  | nil hs => exact h'.extend hs
  | cons hs hn _ ih => exact .cons hs hn (ih h')

theorem Ordered.filter (h : Ordered s t ns) (p : Node → Bool) : Ordered s t (ns.filter p) := by
  induction h with
  | nil hs => exact .nil hs
  | @cons s t n ns hs hn _ ih =>
      cases hp : p n with
      | true =>
          rw [List.filter_cons_of_pos hp]
          exact .cons hs hn ih
      | false =>
          rw [List.filter_cons_of_neg (by simp [hp])]
          exact ih.extend (hn.trans hs)

/-- In the place of each node may stand what is ordered inside it. -/
theorem Ordered.flatMap {f : Node → List Node} (h : Ordered s t ns) (hf : ∀ n ∈ ns, Ordered n.start n.stop (f n)) :
    Ordered s t (ns.flatMap f) := by
  induction h with
  | nil hs => exact .nil hs
  | cons hs _ _ ih =>
      obtain ⟨hn, hns⟩ := List.forall_mem_cons.1 hf
      rw [List.flatMap_cons]
      exact (hn.extend hs).append (ih hns)

theorem ordered_repeated {m : Matcher} (hm : ∀ {s t ns}, m s = some (t, ns) → Ordered s t ns) (k : Nat)
    (s : List Char) : Ordered s (repeated m k s).1 (repeated m k s).2 := by
  induction k generalizing s with
  | zero => exact .nil List.suffix_rfl
  | succ k ih =>
      rw [repeated]
      split
      next => exact .nil List.suffix_rfl
      next t ns ht => exact (hm ht).append (ih t)

theorem Expression.ordered_of_run (he : ∀ r ∈ e.callees, r.isSilent = false)
    (h : e.run Rule.run s = some (t, ns)) : Ordered s t ns := by
  induction e generalizing s t ns with
  | empty =>
      cases h
      exact .nil List.suffix_rfl
  | char p =>
      obtain ⟨c, -, rfl, rfl⟩ := run_char_eq_some.1 h
      exact .nil (List.suffix_cons c t)
  | seq e f ihe ihf =>
      rw [callees, List.forall_mem_append] at he
      obtain ⟨u, ms, ks, hu, hv, rfl⟩ := run_seq_eq_some.1 h
      exact (ihe he.1 hu).append (ihf he.2 hv)
  | choice e f ihe ihf =>
      rw [callees, List.forall_mem_append] at he
      rcases run_choice_eq_some.1 h with h | ⟨-, h⟩
      · exact ihe he.1 h
      · exact ihf he.2 h
  | star e ih =>
      have hr : repeated (e.run Rule.run) (rounds s) s = (t, ns) := Option.some.inj h
      have ho := ordered_repeated (fun h => ih he h) (rounds s) s
      rw [hr] at ho
      exact ho
  | absent e =>
      obtain ⟨-, rfl, rfl⟩ := run_absent_eq_some.1 h
      exact .nil List.suffix_rfl
  | call r =>
      obtain ⟨n, rfl, -, rfl, rfl, hn⟩ := Rule.isMatch_of_run (he r (List.mem_singleton.2 rfl)) h
      exact .cons List.suffix_rfl (Rule.lawful_run.suffix hn.2) (.nil List.suffix_rfl)

namespace Node.IsMatch

/-- The text of a match is matched by the body of its rule, and its children are what that made. -/
theorem body (h : n.IsMatch) :
    ∃ ms, (Grammar.body n.rule).run Rule.run n.start = some (n.stop, ms) ∧
      n.children = if n.rule.isToken then [] else ms := by
  obtain ⟨ms, hm, hn⟩ := (Rule.run_node h.1).1 h.2
  refine ⟨ms, hm, ?_⟩
  rw [List.cons.injEq] at hn
  exact congrArg Node.children hn.1

theorem child (h : n.IsMatch) (hm : m ∈ n.children) : m.rule ∈ (Grammar.body n.rule).callees ∧ m.IsMatch := by
  obtain ⟨ms, hrun, hc⟩ := h.body
  rw [hc] at hm
  split at hm
  next => cases hm
  next => exact Expression.mem_of_run (fun r hr => Rule.callees_silent hr) hrun hm

/-- A node whose rule repeats no rules has one of finitely many rows of children. -/
theorem shape (h : n.IsMatch) (hr : n.rule = r) (ht : r.isToken = false)
    (hx : (Grammar.body r).repeatsText = true) : n.children.map Node.rule ∈ (Grammar.body r).shapes := by
  subst hr
  obtain ⟨ms, hrun, hc⟩ := h.body
  rw [hc, ht]
  exact Expression.shape_of_run (fun r hr => Rule.callees_silent hr) hx hrun

theorem ordered (h : n.IsMatch) : Ordered n.start n.stop n.children := by
  obtain ⟨ms, hm, hc⟩ := h.body
  rw [hc]
  split
  next => exact .nil (Rule.lawful_run.suffix h.2)
  next => exact Expression.ordered_of_run (fun r hr => Rule.callees_silent hr) hm

theorem text_append (h : n.IsMatch) : n.text ++ n.stop = n.start := by
  obtain ⟨w, hw⟩ := Rule.lawful_run.suffix h.2
  rw [Node.text, ← hw, Text.Place.between_append]

end Node.IsMatch

/-! The children of the nodes of selectors. -/

/-- Combinators and compounds in turn. -/
inductive Links : List Node → Prop
  | nil : Links []
  | cons {k c ns} : k.IsMatch → k.rule = .combinator → c.IsMatch → c.rule = .compoundSelector → Links ns →
      Links (k :: c :: ns)

theorem links_of_iterates
    (h : Iterates ((Expression.seq (.call .combinator) (.call .compoundSelector)).run Rule.run) s t ns) : Links ns := by
  induction h with
  | stop => exact .nil
  | next hs _ ih =>
      obtain ⟨u, ms, ks, hm, hk, rfl⟩ := run_seq_eq_some.1 hs
      obtain ⟨k, rfl, hkr, -, -, hkm⟩ := Rule.isMatch_of_run rfl hm
      obtain ⟨c, rfl, hcr, -, -, hcm⟩ := Rule.isMatch_of_run rfl hk
      exact .cons hkm hkr hcm hcr ih

theorem Links.isMatch (h : Links ns) : ∀ n ∈ ns, n.IsMatch := by
  induction h with
  | nil => exact List.forall_mem_nil _
  | cons hk _ hc _ _ ih => exact List.forall_mem_cons.2 ⟨hk, List.forall_mem_cons.2 ⟨hc, ih⟩⟩

namespace Node.IsMatch

theorem complexSelector (h : n.IsMatch) (hr : n.rule = .complexSelector) :
    ∃ c ns, n.children = c :: ns ∧ c.IsMatch ∧ c.rule = .compoundSelector ∧ Links ns := by
  obtain ⟨ms, hm, hc⟩ := h.body
  rw [hr] at hm hc
  obtain ⟨u, ks, ls, hu, hv, rfl⟩ := run_seq_eq_some.1 hm
  obtain ⟨c, rfl, hcr, -, -, hcm⟩ := Rule.isMatch_of_run rfl hu
  exact ⟨c, ls, hc, hcm, hcr, links_of_iterates ((run_star_eq_some Rule.lawful_run rfl).1 hv)⟩

theorem selectorList (h : n.IsMatch) (hr : n.rule = .selectorList) :
    ∃ x ns, n.children = x :: ns ∧ x.rule = .complexSelector := by
  obtain ⟨ms, hm, hc⟩ := h.body
  rw [hr] at hm hc
  obtain ⟨u, ks, ls, hu, -, rfl⟩ := run_seq_eq_some.1 hm
  obtain ⟨x, rfl, hxr, -⟩ := Rule.isMatch_of_run rfl hu
  exact ⟨x, ls, hc, hxr⟩

theorem compoundSelector (h : n.IsMatch) (hr : n.rule = .compoundSelector) : n.children ≠ [] := by
  obtain ⟨ms, hm, hc⟩ := h.body
  rw [hr] at hm hc
  have hne : ms ≠ [] := by
    rcases run_choice_eq_some.1 hm with hm | ⟨-, hm⟩
    · obtain ⟨u, ks, ls, hu, -, rfl⟩ := run_seq_eq_some.1 hm
      obtain ⟨x, rfl, -⟩ := Rule.isMatch_of_run rfl hu
      exact List.cons_ne_nil x ls
    · obtain ⟨u, ks, ls, hu, -, rfl⟩ := run_seq_eq_some.1 hm
      obtain ⟨e, he, hu⟩ := run_choices_some hu
      simp only [List.mem_cons, List.not_mem_nil, or_false] at he
      rcases he with rfl | rfl | rfl | rfl | rfl <;>
      · obtain ⟨x, rfl, -⟩ := Rule.isMatch_of_run rfl hu
        exact List.cons_ne_nil x ls
  rw [hc]
  exact hne

end Node.IsMatch

mutual

theorem Node.IsMatch.family : ∀ (n : Node), n.IsMatch → ∀ m ∈ n.family, m.IsMatch
  | ⟨r, s, t, ns⟩, h, m, hm => by
      rw [Node.family] at hm
      rcases List.mem_cons.1 hm with rfl | hm
      · exact h
      · exact Node.isMatch_familyOfAll ns (fun k hk => (h.child hk).2) m hm

theorem Node.isMatch_familyOfAll : ∀ (ns : List Node), (∀ n ∈ ns, n.IsMatch) →
    ∀ m ∈ Node.familyOfAll ns, m.IsMatch
  | [], _, m, hm => by cases hm
  | n :: ns, h, m, hm => by
      rw [Node.familyOfAll] at hm
      rcases List.mem_append.1 hm with hm | hm
      · exact Node.IsMatch.family n (h n List.mem_cons_self) m hm
      · exact Node.isMatch_familyOfAll ns (fun k hk => h k (List.mem_cons_of_mem n hk)) m hm

end

mutual

/-- Inside a node there is nothing but children of the nodes inside it. -/
theorem Node.mem_family : ∀ (n : Node), ∀ m ∈ n.family, m = n ∨ ∃ p ∈ n.family, m ∈ p.children
  | ⟨r, s, t, ns⟩, m, hm => by
      rw [Node.family] at hm ⊢
      rcases List.mem_cons.1 hm with rfl | hm
      · exact Or.inl rfl
      · rcases Node.mem_familyOfAll ns m hm with hm | ⟨p, hp, hm⟩
        · exact Or.inr ⟨⟨r, s, t, ns⟩, List.mem_cons_self, hm⟩
        · exact Or.inr ⟨p, List.mem_cons_of_mem _ hp, hm⟩

theorem Node.mem_familyOfAll : ∀ (ns : List Node), ∀ m ∈ Node.familyOfAll ns,
    m ∈ ns ∨ ∃ p ∈ Node.familyOfAll ns, m ∈ p.children
  | [], m, hm => by cases hm
  | n :: ns, m, hm => by
      rw [Node.familyOfAll] at hm ⊢
      rcases List.mem_append.1 hm with hm | hm
      · rcases Node.mem_family n m hm with rfl | ⟨p, hp, hm⟩
        · exact Or.inl List.mem_cons_self
        · exact Or.inr ⟨p, List.mem_append_left _ hp, hm⟩
      · rcases Node.mem_familyOfAll ns m hm with hm | ⟨p, hp, hm⟩
        · exact Or.inl (List.mem_cons_of_mem n hm)
        · exact Or.inr ⟨p, List.mem_append_right _ hp, hm⟩

end

end SelectorSyntax.Grammar
