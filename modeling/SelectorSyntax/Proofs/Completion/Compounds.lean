import SelectorSyntax.Proofs.Completion.Pseudos
import SelectorSyntax.Proofs.Spelling.WrittenCompound

namespace SelectorSyntax.Selector.Spelling

open Grammar Expression Text CharClass SelectorSyntax.Bracket

variable {e : Expression} {c : Char} {r : Rule} {k s t u v w : List Char}

/-! Simple selectors. Their marks tell them apart, and colons what stands behind the first. -/

def subclasses : List Expression :=
  [call .idSelector, call .classSelector, call .attributeSelector, call .pseudoElement, call .pseudoClass]

theorem consumes_marked (hb : body r = .seq (.exactly c) e) (h : (call r).Consumes s t) :
    ∃ y, s = c :: y ∧ e.Consumes y t := by
  rw [consumes_call, hb] at h
  obtain ⟨y, hy, h⟩ := consumes_seq.1 h
  exact ⟨y, consumes_exactly.1 hy, h⟩

/-- Where one alternative matches, those before it match no text that begins as that does. -/
theorem earlier_of_subclass (he : e ∈ subclasses) (h : e.Consumes (c :: s) t) :
    ∃ es fs, subclasses = es ++ e :: fs ∧ ∀ x, x <+: s → ∀ f ∈ es, f.run Rule.run (c :: x) = none := by
  simp only [subclasses, List.mem_cons, List.not_mem_nil, or_false] at he
  rcases he with rfl | rfl | rfl | rfl | rfl
  · exact ⟨[], _, rfl, fun x _ => by simp⟩
  · obtain ⟨y, hy, -⟩ := consumes_marked rfl h
    cases hy
    refine ⟨[call .idSelector], _, rfl, fun x _ => ?_⟩
    simp only [List.mem_singleton, forall_eq]
    exact run_begins_none rfl rfl x
  · obtain ⟨y, hy, -⟩ := consumes_marked rfl h
    cases hy
    refine ⟨[call .idSelector, call .classSelector], _, rfl, fun x _ => ?_⟩
    simp only [List.mem_cons, List.not_mem_nil, or_false, forall_eq_or_imp, forall_eq]
    exact ⟨run_begins_none rfl rfl x, run_begins_none rfl rfl x⟩
  · obtain ⟨y, hy, -⟩ := consumes_seq.1 (consumes_call.1 h)
    obtain rfl : c = ':' := (List.cons.inj (consumes_literal.1 hy)).1
    exact ⟨[call .idSelector, call .classSelector, call .attributeSelector], _, rfl, fun x _ => run_marked_none x⟩
  · obtain ⟨y, hy, htail⟩ := consumes_marked rfl h
    cases hy
    refine ⟨[call .idSelector, call .classSelector, call .attributeSelector, call .pseudoElement], _, rfl, ?_⟩
    rintro x ⟨v, rfl⟩
    refine run_earlier_none ?_
    rintro r rfl
    exact not_consumes (run_eq_none_of_begins (r ++ v) rfl rfl) htail

theorem run_simple_eq_some {x : List Char × List Node} :
    simpleSelector.run Rule.run s = some x ↔ ∃ e ∈ subclasses, e.run Rule.run s = some x := by
  constructor
  · exact run_choices_some
  · rintro ⟨e, he, h⟩
    have htakes : ∀ e ∈ subclasses, e.takes = true := by decide
    cases s with
    | nil =>
        rw [run_nil_eq_none (htakes e he)] at h
        cases h
    | cons c s =>
        obtain ⟨es, fs, hsub, hnone⟩ := earlier_of_subclass he ⟨x.2, h⟩
        rw [show simpleSelector = choices subclasses from rfl, hsub]
        exact run_choices_of es (hnone s List.prefix_rfl) h

theorem consumes_simple : simpleSelector.Consumes s t ↔ ∃ e ∈ subclasses, e.Consumes s t := by
  constructor
  · rintro ⟨ns, h⟩
    obtain ⟨e, he, h⟩ := run_simple_eq_some.1 h
    exact ⟨e, he, ns, h⟩
  · rintro ⟨e, he, ns, h⟩
    exact ⟨ns, run_simple_eq_some.2 ⟨e, he, h⟩⟩

theorem mark_of_simple (h : simpleSelector.Consumes s t) : ∃ c y, s = c :: y ∧ c ∈ marks := by
  obtain ⟨e, he, h⟩ := consumes_simple.1 h
  simp only [subclasses, List.mem_cons, List.not_mem_nil, or_false] at he
  rcases he with rfl | rfl | rfl | rfl | rfl
  · obtain ⟨y, rfl, -⟩ := consumes_marked rfl h
    exact ⟨_, y, rfl, by decide⟩
  · obtain ⟨y, rfl, -⟩ := consumes_marked rfl h
    exact ⟨_, y, rfl, by decide⟩
  · obtain ⟨y, rfl, -⟩ := consumes_marked rfl h
    exact ⟨_, y, rfl, by decide⟩
  · obtain ⟨y, hy, -⟩ := consumes_seq.1 (consumes_call.1 h)
    exact ⟨':', ':' :: y, consumes_literal.1 hy, by decide⟩
  · obtain ⟨y, rfl, -⟩ := consumes_marked rfl h
    exact ⟨_, y, rfl, by decide⟩

theorem apart_of_simple (h : simpleSelector.Consumes s t) : Apart s := by
  obtain ⟨c, y, rfl, hc⟩ := mark_of_simple h
  refine apart_of_mem marks rfl (by decide) fun d z hd => ?_
  cases hd
  exact hc

theorem apart_nil : Apart [] := ⟨stops_nil, fun r h => by cases h⟩

theorem keeps_marked (hb : body r = .seq (.exactly c) (.call .ident)) (hk : Apart (v ++ k)) (he : Escape.Ends k) :
    (call r).Keeps u k v := by
  refine keeps_call ?_
  rw [hb]
  exact .seq (fun _ _ => keeps_char _) (keeps_ident ⟨hk.stops, Or.inr he⟩)

theorem keeps_simple (hk : Apart (v ++ k)) (he : Escape.Ends k) : simpleSelector.Keeps u k v := by
  intro s ns h hl
  obtain ⟨e, hmem, h⟩ := run_simple_eq_some.1 h
  have hkeeps : e.Keeps u k v := by
    simp only [subclasses, List.mem_cons, List.not_mem_nil, or_false] at hmem
    rcases hmem with rfl | rfl | rfl | rfl | rfl
    · exact keeps_marked rfl hk he
    · exact keeps_marked rfl hk he
    · exact keeps_attribute he
    · exact keeps_pseudoElement hk he
    · exact keeps_pseudoClass hk he
  obtain ⟨ms, hm, hb⟩ := hkeeps h hl
  exact ⟨ms, run_simple_eq_some.2 ⟨e, hmem, hm⟩, hb⟩

theorem completes_marked (hb : body r = .seq (.exactly c) (.call .ident)) (hnil : (call r).Completes [])
    (h : (call r).Reaches (w ++ u) u) : (call r).Completes w := by
  have hname : (call .ident).Completes [] := ⟨['z'], detached_of rfl, _, rfl⟩
  refine completes_rule h hnil fun h => ?_
  rw [hb] at h ⊢
  exact completes_seq_callFree rfl h (fun _ h => completes_leaf rfl hname h) fun _ _ _ _ => keeps_char _

theorem completes_simple (h : simpleSelector.Reaches (w ++ u) u) : simpleSelector.Completes w := by
  obtain ⟨e, he, h⟩ := reaches_choices h
  have hcompletes : e.Completes w := by
    simp only [List.mem_cons, List.not_mem_nil, or_false] at he
    rcases he with rfl | rfl | rfl | rfl | rfl
    · exact completes_marked rfl ⟨['#', 'z'], detached_of rfl, _, rfl⟩ h
    · exact completes_marked rfl ⟨['.', 'z'], detached_of rfl, _, rfl⟩ h
    · exact completes_attribute h
    · exact completes_pseudoElement h
    · exact completes_pseudoClass h
  obtain ⟨t, ht, hx⟩ := hcompletes
  exact ⟨t, ht, consumes_simple.2 ⟨e, he, hx⟩⟩

theorem apart_of_simples (h : (star simpleSelector).Consumes s t) (ht : Apart t) : Apart s := by
  rcases Relation.ReflTransGen.cases_head ((consumes_star rfl).1 h).1 with rfl | ⟨y, hy, -⟩
  · exact ht
  · exact apart_of_simple hy

theorem keeps_simples (hk : Follows (v ++ k)) (he : Escape.Ends k) : (star simpleSelector).Keeps u k v :=
  .star rfl (keeps_simple hk.apart he) (fun _ _ hx => keeps_simple (apart_of_simple hx) he) hk.run_simple

theorem completes_simples (h : (star simpleSelector).Reaches (w ++ u) u) : (star simpleSelector).Completes w :=
  completes_star rfl h (fun _ h => completes_simple h) fun _ _ _ ht hx => keeps_simple (apart_of_simple hx) ht.ends

/-! Compounds. -/

theorem keeps_type (hk : Stops (v ++ k)) (he : Escape.Ends k) : (call .typeSelector).Keeps u k v := by
  refine keeps_call (.choice (keeps_call (keeps_char _)) (keeps_ident ⟨hk, Or.inr he⟩) fun s h => ?_)
  obtain ⟨c, y, hs, hc⟩ := h.exists_cons rfl
  rw [hs]
  refine Rule.run_eq_none.2 (run_exactly_eq_none.2 ?_)
  rintro ⟨⟩
  cases hc

theorem completes_type (h : (call .typeSelector).Reaches (w ++ u) u) : (call .typeSelector).Completes w := by
  have hnil : (call .typeSelector).Completes [] := ⟨['z'], detached_of rfl, _, rfl⟩
  refine completes_rule h hnil fun h => ?_
  obtain rfl : w = [] := by
    rcases reaches_choice.1 h with h | ⟨-, h⟩
    · exact eq_nil_of_leaf rfl h
    · exact eq_nil_of_leaf rfl h
  exact completes_call.1 hnil

theorem run_type_none (h : simpleSelector.Consumes s t) : Rule.typeSelector.run s = none := by
  obtain ⟨c, y, rfl, hc⟩ := mark_of_simple h
  exact run_type_mark hc y

theorem run_typed_none (h : (plus simpleSelector).Consumes s t) :
    (seq (call .typeSelector) (star simpleSelector)).run Rule.run s = none := by
  obtain ⟨y, hy, -⟩ := consumes_seq.1 h
  exact run_seq_eq_none.2 (Or.inl (run_type_none hy))

theorem keeps_compound (hk : Follows (v ++ k)) (he : Escape.Ends k) : (call .compoundSelector).Keeps u k v := by
  have hsimples : (star simpleSelector).Keeps u k v := keeps_simples hk he
  refine keeps_call (.choice (.seq (fun x hx => ?_) hsimples) (.seq (fun x hx => ?_) hsimples) fun s h => ?_)
  · exact keeps_type (apart_of_simples hx hk.apart).stops he
  · exact keeps_simple (apart_of_simples hx hk.apart) he
  · exact run_typed_none h

theorem completes_compound (h : (call .compoundSelector).Reaches (w ++ u) u) :
    (call .compoundSelector).Completes w := by
  have hend : (star simpleSelector).Consumes [] [] := consumes_star_nil rfl
  refine completes_rule h ⟨['z'], detached_of rfl, _, rfl⟩ fun h => ?_
  refine completes_choice h (fun h => ?_) (fun h => ?_) fun _ _ hx => run_typed_none hx
  · refine completes_seq h (fun h => (completes_type h).seq_nil hend) (fun _ h => completes_simples h) ?_
    exact fun _ _ ht hx => keeps_type (apart_of_simples hx apart_nil).stops ht.ends
  · refine completes_seq h (fun h => (completes_simple h).seq_nil hend) (fun _ h => completes_simples h) ?_
    exact fun _ _ ht hx => keeps_simple (apart_of_simples hx apart_nil) ht.ends

end SelectorSyntax.Selector.Spelling
