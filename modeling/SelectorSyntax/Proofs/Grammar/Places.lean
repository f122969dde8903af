import Mathlib.Logic.Relation
import SelectorSyntax.Proofs.Grammar.Bare
import SelectorSyntax.Proofs.Grammar.Beginnings
import SelectorSyntax.Proofs.Grammar.Tracking

namespace SelectorSyntax.Grammar

open Relation

namespace Expression

/-- The expression matches at the front of a text and leaves `t`. -/
def Consumes (e : Expression) (s t : List Char) : Prop := ∃ ns, e.run Rule.run s = some (t, ns)

/-- While the expression is matched, a rule is tried where `u` is left. -/
def Reaches (e : Expression) (s u : List Char) : Prop := ∃ p v q, e.Calls s p v ∧ Reach p v q u

/-- The arguments among some nodes are taken as well if `k` follows instead of `u`. -/
def Lasting (u k : List Char) (ns : List Node) : Prop :=
  ∀ n ∈ Node.familyOfAll ns, n.IsMatch → n.rule = .arguments → ∀ ⦃s v⦄, n.start = s ++ u → n.stop = v ++ u →
    (call .arguments).Consumes (s ++ k) (v ++ k)

/-- What the expression takes in front of `v` if `u` follows, it takes if `k` follows instead, and makes the same
nodes of it, as long as the arguments in it are taken. -/
def Keeps (e : Expression) (u k v : List Char) : Prop :=
  ∀ ⦃s ns⦄, e.run Rule.run (s ++ u) = some (v ++ u, ns) → Lasting u k ns →
    ∃ ms, e.run Rule.run (s ++ k) = some (v ++ k, ms) ∧ Node.bareOfAll ms = Node.bareOfAll ns

variable {e f : Expression} {r : Rule} {c : Char} {k s t u v : List Char} {ns ms : List Node}

/-! What is left of a text. -/

theorem Consumes.ne_none (h : e.Consumes s t) : e.run Rule.run s ≠ none := by
  obtain ⟨ns, h⟩ := h
  rw [h]
  exact Option.some_ne_none _

theorem not_consumes (h : e.run Rule.run s = none) : ¬ e.Consumes s t := fun hc => hc.ne_none h

theorem Consumes.unique (h : e.Consumes s t) (h' : e.Consumes s u) : t = u := by
  obtain ⟨ns, h⟩ := h
  obtain ⟨ms, h'⟩ := h'
  cases h.symm.trans h'
  rfl

theorem Consumes.suffix (h : e.Consumes s t) : t <:+ s := by
  obtain ⟨ns, h⟩ := h
  exact run_suffix Rule.lawful_run e h

theorem Consumes.shorter (he : e.takes = true) (h : e.Consumes s t) : t.length < s.length := by
  obtain ⟨ns, h⟩ := h
  exact run_shorter Rule.lawful_run e he h

theorem consumes_call : (call r).Consumes s t ↔ (body r).Consumes s t := by
  constructor
  · rintro ⟨ns, h⟩
    obtain ⟨ms, hm, -⟩ := Rule.run_eq_some.1 h
    exact ⟨ms, hm⟩
  · rintro ⟨ms, hm⟩
    have hne : r.run s ≠ none := by
      rw [Ne, Rule.run_eq_none, hm]
      exact Option.some_ne_none _
    obtain ⟨⟨u, ns⟩, h⟩ := Option.ne_none_iff_exists'.1 hne
    obtain ⟨ks, hk, -⟩ := Rule.run_eq_some.1 h
    cases hm.symm.trans hk
    exact ⟨ns, h⟩

theorem consumes_empty : empty.Consumes s t ↔ t = s := by
  constructor
  · rintro ⟨ns, h⟩
    cases h
    rfl
  · rintro rfl
    exact ⟨[], rfl⟩

theorem consumes_char {p : Char → Bool} : (char p).Consumes s t ↔ ∃ c, p c = true ∧ s = c :: t := by
  constructor
  · rintro ⟨ns, h⟩
    obtain ⟨c, hc, hs, -⟩ := run_char_eq_some.1 h
    exact ⟨c, hc, hs⟩
  · rintro ⟨c, hc, hs⟩
    exact ⟨[], run_char_eq_some.2 ⟨c, hc, hs, rfl⟩⟩

theorem consumes_exactly : (exactly c).Consumes s t ↔ s = c :: t := by
  simp [exactly, consumes_char]

theorem consumes_literal {w : String} : (literal w).Consumes s t ↔ s = w.toList ++ t := by
  constructor
  · rintro ⟨ns, h⟩
    exact (run_literal_eq_some.1 h).1
  · exact fun h => ⟨[], run_literal_eq_some.2 ⟨h, rfl⟩⟩

theorem consumes_seq : (seq e f).Consumes s t ↔ ∃ u, e.Consumes s u ∧ f.Consumes u t := by
  constructor
  · rintro ⟨ns, h⟩
    obtain ⟨u, ms, ks, hu, ht, -⟩ := run_seq_eq_some.1 h
    exact ⟨u, ⟨ms, hu⟩, ks, ht⟩
  · rintro ⟨u, ⟨ms, hu⟩, ks, ht⟩
    exact ⟨_, run_seq_eq_some.2 ⟨u, ms, ks, hu, ht, rfl⟩⟩

theorem consumes_choice :
    (choice e f).Consumes s t ↔ e.Consumes s t ∨ e.run Rule.run s = none ∧ f.Consumes s t := by
  constructor
  · rintro ⟨ns, h⟩
    rcases run_choice_eq_some.1 h with h | ⟨hn, h⟩
    · exact Or.inl ⟨ns, h⟩
    · exact Or.inr ⟨hn, ns, h⟩
  · rintro (⟨ns, h⟩ | ⟨hn, ns, h⟩)
    · exact ⟨ns, run_choice_eq_some.2 (Or.inl h)⟩
    · exact ⟨ns, run_choice_eq_some.2 (Or.inr ⟨hn, h⟩)⟩

theorem consumes_maybe : (maybe e).Consumes s t ↔ e.Consumes s t ∨ e.run Rule.run s = none ∧ t = s := by
  rw [maybe, consumes_choice, consumes_empty]

theorem consumes_absent : (absent e).Consumes s t ↔ e.run Rule.run s = none ∧ t = s := by
  constructor
  · rintro ⟨ns, h⟩
    obtain ⟨hn, ht, -⟩ := run_absent_eq_some.1 h
    exact ⟨hn, ht⟩
  · rintro ⟨hn, rfl⟩
    exact ⟨[], run_absent_eq_some.2 ⟨hn, rfl, rfl⟩⟩

/-- A repetition takes rounds one after another as long as there are any. -/
theorem consumes_star (he : e.takes = true) :
    (star e).Consumes s t ↔ ReflTransGen e.Consumes s t ∧ e.run Rule.run t = none := by
  constructor
  · rintro ⟨ns, h⟩
    have hi := (run_star_eq_some Rule.lawful_run he).1 h
    clear h
    induction hi with
    | stop hs => exact ⟨.refl, hs⟩
    | next hs _ ih => exact ⟨.head ⟨_, hs⟩ ih.1, ih.2⟩
  · rintro ⟨h, hn⟩
    induction h using ReflTransGen.head_induction_on with
    | refl => exact ⟨[], (run_star_eq_some Rule.lawful_run he).2 (.stop hn)⟩
    | head hs _ ih =>
        obtain ⟨ms, hs⟩ := hs
        obtain ⟨ns, ih⟩ := ih
        exact ⟨_, (run_star_eq_some Rule.lawful_run he).2 (.next hs ((run_star_eq_some Rule.lawful_run he).1 ih))⟩

theorem rounds_suffix (h : ReflTransGen e.Consumes s t) : t <:+ s := by
  induction h with
  | refl => exact List.suffix_rfl
  | tail _ hs ih => exact hs.suffix.trans ih

theorem consumes_plus (he : e.takes = true) :
    (plus e).Consumes s t ↔ ∃ u, e.Consumes s u ∧ ReflTransGen e.Consumes u t ∧ e.run Rule.run t = none := by
  rw [plus, consumes_seq]
  simp only [consumes_star he]

theorem consumes_nil (he : e.takes = true) : ¬ e.Consumes [] t := not_consumes (run_nil_eq_none he)

theorem consumes_star_nil (he : e.takes = true) : (star e).Consumes [] [] :=
  (consumes_star he).2 ⟨.refl, run_nil_eq_none he⟩

/-- What takes something takes a character with which it may begin. -/
theorem Consumes.exists_cons (he : e.takes = true) (h : e.Consumes s t) :
    ∃ c r, s = c :: r ∧ e.begins c (Rule.begins c) = true := by
  cases s with
  | nil => exact absurd h (consumes_nil he)
  | cons c r =>
      refine ⟨c, r, rfl, ?_⟩
      cases hc : e.begins c (Rule.begins c) with
      | true => rfl
      | false => exact absurd h (not_consumes (run_eq_none_of_begins r he hc))

/-- A choice takes what one of its alternatives takes, and all those before it do not. -/
theorem consumes_choices {es : List Expression} (h : (choices es).Consumes s t) : ∃ e ∈ es, e.Consumes s t := by
  obtain ⟨ns, h⟩ := h
  obtain ⟨e, he, h⟩ := run_choices_some h
  exact ⟨e, he, ns, h⟩

/-- Between texts none of which begins another, at most one can be taken. -/
theorem consumes_literals (ws : List String)
    (hws : ws.Pairwise fun a b => ¬ a.toList <+: b.toList ∧ ¬ b.toList <+: a.toList) :
    (choices (ws.map literal)).Consumes s t ↔ ∃ w ∈ ws, s = w.toList ++ t := by
  constructor
  · intro h
    obtain ⟨e, he, h⟩ := consumes_choices h
    obtain ⟨w, hw, rfl⟩ := List.mem_map.1 he
    exact ⟨w, hw, consumes_literal.1 h⟩
  · rintro ⟨w, hw, hs⟩
    obtain ⟨as, bs, rfl⟩ := List.append_of_mem hw
    rw [List.map_append, List.map_cons]
    refine ⟨[], run_choices_of _ (fun e he => ?_) (run_literal_eq_some.2 ⟨hs, rfl⟩)⟩
    obtain ⟨a, ha, rfl⟩ := List.mem_map.1 he
    have hdistinct := (List.pairwise_append.1 hws).2.2 a ha w List.mem_cons_self
    refine run_literal_eq_none.2 fun hprefix => ?_
    rw [hs] at hprefix
    rcases List.prefix_or_prefix_of_prefix hprefix (List.prefix_append w.toList t) with h | h
    · exact hdistinct.1 h
    · exact hdistinct.2 h

/-! Where rules are tried. -/

theorem reaches_call : (call r).Reaches s u ↔ u = s ∨ (body r).Reaches s u := by
  constructor
  · rintro ⟨p, v, q, hp, hr⟩
    obtain ⟨rfl, rfl⟩ := calls_call.1 hp
    cases hr with
    | here => exact Or.inl rfl
    | call hc hr => exact Or.inr ⟨_, _, _, hc, hr⟩
  · rintro (rfl | ⟨p, v, q, hp, hr⟩)
    · exact ⟨r, u, r, .call, .here⟩
    · exact ⟨r, s, q, .call, .call hp hr⟩

theorem not_reaches_callFree (he : e.callFree = true) : ¬ e.Reaches s u := by
  rintro ⟨p, v, q, hp, -⟩
  exact not_calls_callFree he hp

theorem reaches_seq : (seq e f).Reaches s u ↔ e.Reaches s u ∨ ∃ t, e.Consumes s t ∧ f.Reaches t u := by
  constructor
  · rintro ⟨p, v, q, hp, hr⟩
    rcases calls_seq.1 hp with hp | ⟨t, ns, ht, hp⟩
    · exact Or.inl ⟨p, v, q, hp, hr⟩
    · exact Or.inr ⟨t, ⟨ns, ht⟩, p, v, q, hp, hr⟩
  · rintro (⟨p, v, q, hp, hr⟩ | ⟨t, ⟨ns, ht⟩, p, v, q, hp, hr⟩)
    · exact ⟨p, v, q, .first hp, hr⟩
    · exact ⟨p, v, q, .second ht hp, hr⟩

/-- Behind what calls no rule, the places are those of the rest. -/
theorem reaches_seq_callFree (he : e.callFree = true) :
    (seq e f).Reaches s u ↔ ∃ t, e.Consumes s t ∧ f.Reaches t u := by
  rw [reaches_seq, or_iff_right (not_reaches_callFree he)]

theorem reaches_choice : (choice e f).Reaches s u ↔ e.Reaches s u ∨ e.run Rule.run s = none ∧ f.Reaches s u := by
  constructor
  · rintro ⟨p, v, q, hp, hr⟩
    rcases calls_choice.1 hp with hp | ⟨hn, hp⟩
    · exact Or.inl ⟨p, v, q, hp, hr⟩
    · exact Or.inr ⟨hn, p, v, q, hp, hr⟩
  · rintro (⟨p, v, q, hp, hr⟩ | ⟨hn, p, v, q, hp, hr⟩)
    · exact ⟨p, v, q, .left hp, hr⟩
    · exact ⟨p, v, q, .right hn hp, hr⟩

theorem reaches_maybe : (maybe e).Reaches s u ↔ e.Reaches s u := by
  rw [maybe, reaches_choice]
  exact or_iff_left fun h => not_reaches_callFree rfl h.2

theorem reaches_absent : (absent e).Reaches s u ↔ e.Reaches s u := by
  constructor
  · rintro ⟨p, v, q, hp, hr⟩
    cases hp with
    | absent hp => exact ⟨p, v, q, hp, hr⟩
  · rintro ⟨p, v, q, hp, hr⟩
    exact ⟨p, v, q, .absent hp, hr⟩

theorem reaches_star : (star e).Reaches s u ↔ ∃ t, ReflTransGen e.Consumes s t ∧ e.Reaches t u := by
  constructor
  · rintro ⟨p, v, q, hp, hr⟩
    generalize hx : star e = x at hp
    induction hp with
    | round hp =>
        cases hx
        exact ⟨_, .refl, _, _, q, hp, hr⟩
    | again hs _ ih =>
        cases hx
        obtain ⟨t, ht, hr⟩ := ih hr rfl
        exact ⟨t, .head ⟨_, hs⟩ ht, hr⟩
    | call | first | second | left | right | absent => cases hx
  · rintro ⟨t, ht, hr⟩
    induction ht using ReflTransGen.head_induction_on with
    | refl =>
        obtain ⟨p, v, q, hp, hr⟩ := hr
        exact ⟨p, v, q, .round hp, hr⟩
    | head hs _ ih =>
        obtain ⟨ns, hs⟩ := hs
        obtain ⟨p, v, q, hp, hr⟩ := ih
        exact ⟨p, v, q, .again hs hp, hr⟩

theorem reaches_choices {es : List Expression} (h : (choices es).Reaches s u) : ∃ e ∈ es, e.Reaches s u := by
  induction es with
  | nil => exact absurd h (not_reaches_callFree rfl)
  | cons e es ih =>
      cases es with
      | nil => exact ⟨e, List.mem_cons_self, h⟩
      | cons g es =>
          rcases reaches_choice.1 h with h | ⟨-, h⟩
          · exact ⟨e, List.mem_cons_self, h⟩
          · obtain ⟨f, hf, h⟩ := ih h
            exact ⟨f, List.mem_cons_of_mem e hf, h⟩

/-- A rule that calls none is tried at its own place only. -/
theorem reaches_leaf (hr : (body r).callFree = true) : (call r).Reaches s u ↔ u = s := by
  rw [reaches_call, or_iff_left (not_reaches_callFree hr)]

theorem Reaches.suffix (h : e.Reaches s u) : u <:+ s := by
  have hcalls {e : Expression} {s v : List Char} {p : Rule} (h : e.Calls s p v) : v <:+ s := by
    induction h with
    | call => exact List.suffix_rfl
    | first _ ih | left _ ih | right _ _ ih | round _ ih | absent _ ih => exact ih
    | second ht _ ih | again ht _ ih => exact ih.trans (run_suffix Rule.lawful_run _ ht)
  obtain ⟨p, v, q, hp, hr⟩ := h
  refine List.IsSuffix.trans ?_ (hcalls hp)
  clear hp
  induction hr with
  | here => exact List.suffix_rfl
  | call hc _ ih => exact ih.trans (hcalls hc)

/-! What does not depend on the text that follows. -/

theorem eq_of_append_eq {x y : List Char} (h : x ++ u = y ++ u) : x = y := (List.append_left_inj u).1 h

/-- What is left in front of a part of a text. -/
theorem exists_append_of_suffix {x : List Char} (h : v ++ u <:+ x) : ∃ w, x = w ++ u := by
  obtain ⟨w, rfl⟩ := h
  exact ⟨w ++ v, (List.append_assoc w v u).symm⟩

theorem lasting_nil : Lasting u k [] := fun _ hn => absurd hn List.not_mem_nil

theorem lasting_append : Lasting u k (ns ++ ms) ↔ Lasting u k ns ∧ Lasting u k ms := by
  simp only [Lasting, Node.mem_familyOfAll_append, or_imp, forall_and]

theorem Lasting.of_mem {n : Node} (h : Lasting u k ns) (hn : n ∈ ns) : Lasting u k [n] := by
  obtain ⟨as, bs, rfl⟩ := List.append_of_mem hn
  rw [List.append_cons, lasting_append, lasting_append] at h
  exact h.1.2

theorem Lasting.children {s t : List Char} (h : Lasting u k [⟨r, s, t, ns⟩]) : Lasting u k ns := by
  intro n hn
  refine h n ?_
  rw [Node.familyOfAll, Node.family]
  exact List.mem_append_left _ (List.mem_cons_of_mem _ hn)

theorem Keeps.consumes (h : e.Keeps u k v) (hl : ∀ ns, Lasting u k ns) (hs : e.Consumes (s ++ u) (v ++ u)) :
    e.Consumes (s ++ k) (v ++ k) := by
  obtain ⟨ns, hs⟩ := hs
  obtain ⟨ms, hm, -⟩ := h hs (hl ns)
  exact ⟨ms, hm⟩

theorem keeps_self : e.Keeps u u v := fun _ ns h _ => ⟨ns, h, rfl⟩

/-- What calls no rule makes no nodes. -/
theorem keeps_callFree (he : e.callFree = true) (h : ∀ ⦃s⦄, e.Consumes (s ++ u) (v ++ u) → e.Consumes (s ++ k) (v ++ k)) :
    e.Keeps u k v := by
  intro s ns hs _
  obtain ⟨ms, hm⟩ := h ⟨ns, hs⟩
  exact ⟨ms, hm, by rw [run_callFree he hs, run_callFree he hm]⟩

theorem keeps_call (h : (body r).Keeps u k v) : (call r).Keeps u k v := by
  intro s ns hr hl
  have hr : r.run (s ++ u) = some (v ++ u, ns) := hr
  obtain ⟨ms, hm, hns⟩ := Rule.run_eq_some.1 hr
  refine Rule.run_replace hm hr (h hm ?_)
  rw [Rule.wrap] at hns
  split at hns
  next =>
    cases hns
    exact hl
  next =>
    cases hns
    split at hl
    next htoken =>
      obtain rfl : ms = [] := run_callFree (Rule.callFree_of_isToken htoken) hm
      exact lasting_nil
    next => exact hl.children

theorem keeps_token (hr : r.isToken = true)
    (h : ∀ ⦃s⦄, (call r).Consumes (s ++ u) (v ++ u) → (call r).Consumes (s ++ k) (v ++ k)) : (call r).Keeps u k v :=
  keeps_call (keeps_callFree (Rule.callFree_of_isToken hr) fun _ hs => consumes_call.1 (h (consumes_call.2 hs)))

theorem keeps_char (p : Char → Bool) : (char p).Keeps u k v := by
  refine keeps_callFree rfl fun s h => ?_
  obtain ⟨c, hc, hs⟩ := consumes_char.1 h
  obtain rfl : s = c :: v := eq_of_append_eq hs
  exact consumes_char.2 ⟨c, hc, rfl⟩

theorem keeps_literal (w : String) : (literal w).Keeps u k v := by
  intro s ns h _
  obtain ⟨hs, rfl⟩ := run_literal_eq_some.1 h
  rw [← List.append_assoc] at hs
  obtain rfl := eq_of_append_eq hs
  exact ⟨[], run_literal_eq_some.2 ⟨List.append_assoc _ _ _, rfl⟩, rfl⟩

theorem keeps_literals (ws : List String)
    (hws : ws.Pairwise fun a b => ¬ a.toList <+: b.toList ∧ ¬ b.toList <+: a.toList) :
    (choices (ws.map literal)).Keeps u k v := by
  have hnil {s t : List Char} {ns : List Node} (h : (choices (ws.map literal)).run Rule.run s = some (t, ns)) :
      ns = [] := by
    obtain ⟨e, he, h⟩ := run_choices_some h
    obtain ⟨w, -, rfl⟩ := List.mem_map.1 he
    exact (run_literal_eq_some.1 h).2
  intro s ns h _
  obtain ⟨w, hw, hs⟩ := (consumes_literals ws hws).1 ⟨ns, h⟩
  rw [← List.append_assoc] at hs
  obtain rfl := eq_of_append_eq hs
  obtain ⟨ms, hm⟩ := (consumes_literals ws hws).2 ⟨w, hw, List.append_assoc w.toList v k⟩
  exact ⟨ms, hm, by rw [hnil h, hnil hm]⟩

theorem Keeps.seq (he : ∀ ⦃x⦄, f.Consumes (x ++ k) (v ++ k) → e.Keeps u k x) (hf : f.Keeps u k v) :
    (seq e f).Keeps u k v := by
  intro s ns h hl
  obtain ⟨y, ns₁, ns₂, hy, hv, rfl⟩ := run_seq_eq_some.1 h
  obtain ⟨hl₁, hl₂⟩ := lasting_append.1 hl
  obtain ⟨x, rfl⟩ := exists_append_of_suffix (run_suffix Rule.lawful_run f hv)
  obtain ⟨ms₂, hm₂, hb₂⟩ := hf hv hl₂
  obtain ⟨ms₁, hm₁, hb₁⟩ := he ⟨ms₂, hm₂⟩ hy hl₁
  refine ⟨ms₁ ++ ms₂, run_seq_eq_some.2 ⟨x ++ k, ms₁, ms₂, hm₁, hm₂, rfl⟩, ?_⟩
  rw [Node.bareOfAll_append, Node.bareOfAll_append, hb₁, hb₂]

/-- The first alternative has to fail wherever the second one is taken. -/
theorem Keeps.choice (he : e.Keeps u k v) (hf : f.Keeps u k v)
    (hn : ∀ ⦃s⦄, f.Consumes (s ++ k) (v ++ k) → e.run Rule.run (s ++ k) = none) :
    (choice e f).Keeps u k v := by
  intro s ns h hl
  rcases run_choice_eq_some.1 h with h | ⟨-, h⟩
  · obtain ⟨ms, hm, hb⟩ := he h hl
    exact ⟨ms, run_choice_eq_some.2 (Or.inl hm), hb⟩
  · obtain ⟨ms, hm, hb⟩ := hf h hl
    exact ⟨ms, run_choice_eq_some.2 (Or.inr ⟨hn ⟨ms, hm⟩, hm⟩), hb⟩

theorem Keeps.maybe (he : e.Keeps u k v) (hn : e.run Rule.run (v ++ k) = none) : (maybe e).Keeps u k v := by
  refine he.choice (keeps_callFree rfl fun s h => ?_) fun s h => ?_
  · rw [consumes_empty] at h
    rw [eq_of_append_eq h, consumes_empty]
  · rw [consumes_empty] at h
    rwa [← eq_of_append_eq h]

/-- Rounds are kept one by one, each in front of the next one or of what is left at the end, where more rounds may
follow. -/
theorem rounds_keep (hv : e.Keeps u k v) (hx : ∀ ⦃x y⦄, e.Consumes (x ++ k) y → e.Keeps u k x)
    (h : Iterates (e.run Rule.run) (s ++ u) (v ++ u) ns) (hl : Lasting u k ns)
    (hend : Iterates (e.run Rule.run) (v ++ k) t ms) :
    ∃ ks, Iterates (e.run Rule.run) (s ++ k) t (ks ++ ms) ∧ Node.bareOfAll ks = Node.bareOfAll ns ∧
      (s = v ∨ ∃ y, e.Consumes (s ++ k) y) := by
  generalize hs : s ++ u = a at h
  generalize hvu : v ++ u = b at h
  induction h generalizing s with
  | stop =>
      obtain rfl := eq_of_append_eq (hs.trans hvu.symm)
      exact ⟨[], hend, rfl, Or.inl rfl⟩
  | @next a y b ns₁ ns₂ hstep hrest ih =>
      subst hs hvu
      obtain ⟨hl₁, hl₂⟩ := lasting_append.1 hl
      obtain ⟨x, rfl⟩ := exists_append_of_suffix (hrest.suffix fun h => run_suffix Rule.lawful_run e h)
      obtain ⟨ks₂, hi, hb₂, hnext⟩ := ih hl₂ rfl rfl
      have hkeep : e.Keeps u k x := by
        rcases hnext with rfl | ⟨y, hy⟩
        · exact hv
        · exact hx hy
      obtain ⟨ks₁, hk₁, hb₁⟩ := hkeep hstep hl₁
      refine ⟨ks₁ ++ ks₂, ?_, ?_, Or.inr ⟨x ++ k, ks₁, hk₁⟩⟩
      · rw [List.append_assoc]
        exact .next hk₁ hi
      · rw [Node.bareOfAll_append, Node.bareOfAll_append, hb₁, hb₂]

theorem Keeps.star (he : e.takes = true) (hv : e.Keeps u k v)
    (hx : ∀ ⦃x y⦄, e.Consumes (x ++ k) y → e.Keeps u k x) (hn : e.run Rule.run (v ++ k) = none) :
    (star e).Keeps u k v := by
  intro s ns h hl
  obtain ⟨ks, hi, hb, -⟩ := rounds_keep hv hx ((run_star_eq_some Rule.lawful_run he).1 h) hl (.stop hn)
  rw [List.append_nil] at hi
  exact ⟨ks, (run_star_eq_some Rule.lawful_run he).2 hi, hb⟩

end Expression

end SelectorSyntax.Grammar
