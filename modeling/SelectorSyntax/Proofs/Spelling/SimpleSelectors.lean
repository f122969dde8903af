import SelectorSyntax.Proofs.Spelling.Pseudos

namespace SelectorSyntax.Selector.Spelling

open Grammar Expression Text OfNodes

variable {s t w : List Char} {ns : List Node}

/-! Simple selectors. -/

theorem reads_typeSelector : Reads .typeSelector typeName (fun v w => free.TypeName (some v) w) s := by
  intro t ns h
  obtain ⟨ms, hm, rfl⟩ := (Rule.run_node rfl).1 h
  rcases run_choice_eq_some.1 hm with hm | ⟨-, hm⟩
  · have hm : Rule.universal.run s = some (t, ms) := hm
    obtain ⟨rfl, rfl⟩ := (run_exactly_node rfl rfl).1 hm
    refine ⟨['*'], _, rfl, rfl, rfl, fun x hx => ?_⟩
    cases hx
    exact .universal
  · have hm : Rule.ident.run s = some (t, ms) := hm
    obtain ⟨w, n, rfl, rfl, hn, hid⟩ := reads_ident hm
    refine ⟨w, _, rfl, rfl, rfl, fun x hx => ?_⟩
    rw [typeName] at hx
    simp only [Rule.isToken, Bool.false_eq_true, if_false, List.head?_cons, hn] at hx
    exact .element (hid x hx)

/-- A name behind its mark. -/
theorem reads_marked {r : Rule} {c : Char} {R : String → List Char → Prop} (hr : r.isSilent = false)
    (htok : r.isToken = false) (hb : body r = seq (exactly c) (call .ident))
    (hR : ∀ {v w}, free.identifier v w → R v (c :: w)) : Reads r markedName R s := by
  intro t ns h
  obtain ⟨ms, hm, rfl⟩ := (Rule.run_node hr).1 h
  rw [hb] at hm
  obtain ⟨s₁, ms₁, ms₂, h₁, h₂, rfl⟩ := run_seq_eq_some.1 hm
  have h₂ : Rule.ident.run s₁ = some (t, ms₂) := h₂
  obtain ⟨rfl, rfl⟩ := run_exactly_eq_some.1 h₁
  obtain ⟨w, n, rfl, rfl, -, hid⟩ := reads_ident h₂
  refine ⟨c :: w, _, rfl, rfl, rfl, fun x hx => ?_⟩
  simp only [markedName, htok, Bool.false_eq_true, if_false, List.nil_append, List.head?_cons] at hx
  exact hR (hid x hx)

theorem reads_idSelector : Reads .idSelector markedName (fun v w => free.Subclass (.id v) w) s :=
  reads_marked rfl rfl rfl fun h => .id h

theorem reads_classSelector : Reads .classSelector markedName (fun v w => free.Subclass (.className v) w) s :=
  reads_marked rfl rfl rfl fun h => .className h

theorem reads_pseudoClass : Reads .pseudoClass OfNodes.pseudo (fun p w => free.Subclass (.pseudoClass p) w) s := by
  intro t ns h
  obtain ⟨ms, hm, rfl⟩ := (Rule.run_node rfl).1 h
  obtain ⟨s₁, ms₁, ms₂, h₁, h₂, rfl⟩ := run_seq_eq_some.1 hm
  obtain ⟨rfl, rfl⟩ := run_exactly_eq_some.1 h₁
  obtain ⟨w, rfl, hp⟩ := pseudo_of_run h₂
  exact ⟨':' :: w, _, rfl, rfl, rfl, fun x hx => .pseudoClass (hp _ rfl x hx)⟩

theorem reads_pseudoElement :
    Reads .pseudoElement OfNodes.pseudo (fun p w => free.Element [.pseudoElement p] w) s := by
  intro t ns h
  obtain ⟨ms, hm, rfl⟩ := (Rule.run_node rfl).1 h
  obtain ⟨s₁, ms₁, ms₂, h₁, h₂, rfl⟩ := run_seq_eq_some.1 hm
  obtain ⟨rfl, rfl⟩ := run_literal_eq_some.1 h₁
  obtain ⟨w, rfl, hp⟩ := pseudo_of_run h₂
  exact ⟨':' :: ':' :: w, _, rfl, rfl, rfl, fun x hx => .element (hp _ rfl x hx)⟩

/-! Attributes. -/

theorem value_of_run (h : Grammar.attributeValue.run Rule.run s = some (t, ns)) :
    ∃ w n, s = w ++ t ∧ ns = [n] ∧ ∀ x, OfNodes.attributeValue n = .ok x → free.Value x w := by
  rcases run_choice_eq_some.1 h with h | ⟨-, h⟩
  · have h : Rule.string.run s = some (t, ns) := h
    obtain ⟨w, n, rfl, rfl, hn, hread⟩ := reads_string h
    refine ⟨w, n, rfl, rfl, fun x hx => ?_⟩
    rw [OfNodes.attributeValue, hn] at hx
    obtain ⟨v, hv, rfl⟩ := map_eq_ok.1 hx
    exact .quoted (hread v hv)
  · have h : Rule.ident.run s = some (t, ns) := h
    obtain ⟨w, n, rfl, rfl, hn, hread⟩ := reads_ident h
    refine ⟨w, n, rfl, rfl, fun x hx => ?_⟩
    rw [OfNodes.attributeValue, hn] at hx
    obtain ⟨v, hv, rfl⟩ := map_eq_ok.1 hx
    exact .identifier (hread v hv)

/-- The comparison behind the name of an attribute, if there is one. -/
theorem match_of_run
    (h : (maybe (seqs [maybe ws, call .attributeMatcher, maybe ws, Grammar.attributeValue,
      maybe (seq (maybe ws) (call .attributeModifier))])).run Rule.run s = some (t, ns)) :
    ∃ w, s = w ++ t ∧ ∀ place close x, attributeMatch place (ns ++ [close]) = .ok x → free.Match x w := by
  rcases run_maybe_eq_some.1 h with h | ⟨-, rfl, rfl⟩
  · obtain ⟨s₁, ms₁, ks₁, h₁, g₁, rfl⟩ := run_seq_eq_some.1 h
    obtain ⟨s₂, ms₂, ks₂, h₂, g₂, rfl⟩ := run_seq_eq_some.1 g₁
    obtain ⟨s₃, ms₃, ks₃, h₃, g₃, rfl⟩ := run_seq_eq_some.1 g₂
    obtain ⟨s₄, ms₄, ms₅, h₄, h₅, rfl⟩ := run_seq_eq_some.1 g₃
    have h₂ : Rule.attributeMatcher.run s₁ = some (s₂, ms₂) := h₂
    obtain ⟨b₁, hb₁, rfl, rfl⟩ := maybe_ws_blanks h₁
    obtain ⟨x, m, rfl, rfl, -, hm⟩ := reads_matcher h₂
    obtain ⟨b₂, hb₂, rfl, rfl⟩ := maybe_ws_blanks h₃
    obtain ⟨w, v, rfl, rfl, hv⟩ := value_of_run h₄
    rcases run_maybe_eq_some.1 h₅ with h₅ | ⟨-, rfl, rfl⟩
    · obtain ⟨s₅, ms₆, ms₇, h₆, h₇, rfl⟩ := run_seq_eq_some.1 h₅
      have h₇ : Rule.attributeModifier.run s₅ = some (t, ms₇) := h₇
      obtain ⟨b₃, hb₃, rfl, rfl⟩ := maybe_ws_blanks h₆
      obtain ⟨c, f, rfl, rfl, hf, hc⟩ := run_modifier h₇
      refine ⟨b₁ ++ (x ++ (b₂ ++ (w ++ (b₃ ++ [c])))), by simp, fun place close y hy => ?_⟩
      obtain ⟨m', hm', hy⟩ := bind_eq_ok.1 hy
      obtain ⟨v', hv', hy⟩ := bind_eq_ok.1 hy
      rw [hf] at hy
      cases hy
      rw [hm m' hm']
      exact .flagged hb₁ hb₂ (hv v' hv') hb₃ trivial hc
    · refine ⟨b₁ ++ (x ++ (b₂ ++ w)), by simp, fun place close y hy => ?_⟩
      obtain ⟨m', hm', hy⟩ := bind_eq_ok.1 hy
      obtain ⟨v', hv', hy⟩ := bind_eq_ok.1 hy
      cases hy
      rw [hm m' hm']
      exact .plain hb₁ hb₂ (hv v' hv')
  · refine ⟨[], rfl, fun place close x hx => ?_⟩
    cases hx
    exact .none

theorem reads_attributeSelector :
    Reads .attributeSelector OfNodes.attributeSelector free.Attribute s := by
  intro t ns h
  obtain ⟨ms, hm, rfl⟩ := (Rule.run_node rfl).1 h
  obtain ⟨s₁, ms₁, ks₁, h₁, g₁, rfl⟩ := run_seq_eq_some.1 hm
  obtain ⟨s₂, ms₂, ks₂, h₂, g₂, rfl⟩ := run_seq_eq_some.1 g₁
  obtain ⟨s₃, ms₃, ks₃, h₃, g₃, rfl⟩ := run_seq_eq_some.1 g₂
  obtain ⟨s₄, ms₄, ks₄, h₄, g₄, rfl⟩ := run_seq_eq_some.1 g₃
  obtain ⟨s₅, ms₅, ms₆, h₅, h₆, rfl⟩ := run_seq_eq_some.1 g₄
  have h₃ : Rule.ident.run s₂ = some (s₃, ms₃) := h₃
  have h₆ : Rule.bracketClose.run s₅ = some (t, ms₆) := h₆
  obtain ⟨rfl, rfl⟩ := run_exactly_eq_some.1 h₁
  obtain ⟨b₁, hb₁, rfl, rfl⟩ := maybe_ws_blanks h₂
  obtain ⟨w, n, rfl, rfl, -, hid⟩ := reads_ident h₃
  obtain ⟨u, rfl, hu⟩ := match_of_run h₄
  obtain ⟨b₂, hb₂, rfl, rfl⟩ := maybe_ws_blanks h₅
  obtain ⟨rfl, rfl⟩ := (run_exactly_node rfl rfl).1 h₆
  refine ⟨'[' :: (b₁ ++ (w ++ (u ++ (b₂ ++ [']'])))), _, by simp, rfl, rfl, fun x hx => ?_⟩
  obtain ⟨v, hv, hx⟩ := bind_eq_ok.1 hx
  obtain ⟨m, hm, hx⟩ := bind_eq_ok.1 hx
  cases hx
  exact .mk hb₁ (hid v hv) (hu _ _ m hm) hb₂

end SelectorSyntax.Selector.Spelling
