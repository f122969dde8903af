import SelectorSyntax.Proofs.Completion.Attributes
import SelectorSyntax.Proofs.Completion.Brackets

namespace SelectorSyntax.Selector.Spelling

open Grammar Expression Text CharClass SelectorSyntax.Bracket

variable {k s t u v w x : List Char}

/-! Names that take a number. -/

theorem keeps_nthName (hk : ∃ r, v ++ k = '(' :: r) : (call .nthName).Keeps u k v := by
  refine keeps_token rfl fun s ⟨ns, h⟩ => ?_
  obtain ⟨w, -, hw, hs, -⟩ := run_nthName_eq_some.1 h
  obtain ⟨r, hr⟩ := hk
  rw [← List.append_assoc] at hs
  obtain rfl := eq_of_append_eq hs
  exact ⟨_, run_nthName_eq_some.2 ⟨w, r, hw, List.append_assoc _ _ _, hr, rfl⟩⟩

/-- A name that does not take a number is not made one by what follows it, unless it is a parenthesis. -/
theorem run_nthName_none (hu : (call .ident).Consumes (s ++ u) (x ++ u)) (hk : (call .ident).Consumes (s ++ k) (x ++ k))
    (hx : x ≠ [] ∨ ∀ r, k ≠ '(' :: r) (hn : Rule.nthName.run (s ++ u) = none) :
    Rule.nthName.run (s ++ k) = none := by
  cases hrun : Rule.nthName.run (s ++ k) with
  | none => rfl
  | some y =>
      obtain ⟨w, r, hw, hs, ht, -⟩ := run_nthName_eq_some.1 hrun
      have hname : (call .ident).Consumes (s ++ k) ('(' :: r) := by
        rw [hs, ht]
        exact ⟨_, run_ident_of_isPseudoName hw r⟩
      have hparen := hk.unique hname
      rw [ht, ← hparen, ← List.append_assoc] at hs
      obtain rfl := eq_of_append_eq hs
      cases x with
      | nil => exact absurd hparen (hx.resolve_left (fun h => h rfl) r)
      | cons c x =>
          obtain rfl : c = '(' := (List.cons.inj hparen).1
          have hsome := run_nthName_eq_some.2 ⟨w, x ++ u, hw, List.append_assoc w ('(' :: x) u, rfl, rfl⟩
          cases hn.symm.trans hsome

/-! What stands behind the colons: a name that takes a number, or any other name. -/

def numbered : Expression := seq (call .nthName) (call .nthArguments)

def named : Expression := seqs [absent (call .nthName), call .ident, maybe (call .arguments)]

theorem keeps_numbered : numbered.Keeps u k v := by
  refine .seq (fun x hx => keeps_nthName ?_) keeps_nthArguments
  obtain ⟨b₁, y, b₂, -, -, -, hx⟩ := consumes_nthArguments.1 hx
  exact ⟨_, hx⟩

theorem run_numbered_none (h : named.Consumes s t) : numbered.run Rule.run s = none := by
  obtain ⟨y, hy, -⟩ := consumes_seq.1 h
  exact run_seq_eq_none.2 (Or.inl (consumes_absent.1 hy).1)

theorem stops_of_arguments (h : (maybe (call .arguments)).Consumes s t) (ht : Stops t) : Stops s := by
  rcases consumes_maybe.1 h with h | ⟨-, rfl⟩
  · obtain ⟨r, hr, -⟩ := consumes_seq.1 (consumes_call.1 h)
    rw [consumes_exactly.1 hr]
    exact stops_paren r
  · exact ht

theorem keeps_named (hk : Apart (v ++ k)) (he : Escape.Ends k) : named.Keeps u k v := by
  intro s ns h hl
  obtain ⟨_, _, _, hy, hname, rfl⟩ := run_seq_eq_some.1 h
  obtain ⟨hnone, rfl, rfl⟩ := run_absent_eq_some.1 hy
  obtain ⟨z, _, _, hz, hargs, rfl⟩ := run_seq_eq_some.1 hname
  obtain ⟨x, rfl⟩ := exists_append_of_suffix (run_suffix Rule.lawful_run (maybe (call .arguments)) hargs)
  rw [List.nil_append] at hl ⊢
  obtain ⟨hl₁, hl₂⟩ := lasting_append.1 hl
  obtain ⟨ms₂, hargs', hb₂⟩ := Keeps.maybe keeps_arguments (run_arguments_none hk) hargs hl₂
  obtain ⟨ms₁, hident, hb₁⟩ := keeps_ident ⟨stops_of_arguments ⟨ms₂, hargs'⟩ hk.stops, Or.inr he⟩ hz hl₁
  have hparen : x ≠ [] ∨ ∀ r, k ≠ '(' :: r := by
    by_cases hnil : x = []
    · subst hnil
      have hle := (run_suffix Rule.lawful_run (maybe (call .arguments)) hargs).length_le
      rw [List.length_append, List.nil_append] at hle
      obtain rfl : v = [] := List.length_eq_zero_iff.1 (by omega)
      exact Or.inr hk.bare
    · exact Or.inl hnil
  have hnone := run_nthName_none ⟨_, hz⟩ ⟨_, hident⟩ hparen hnone
  refine ⟨ms₁ ++ ms₂, run_seq_eq_some.2 ⟨s ++ k, [], _, run_absent_eq_some.2 ⟨hnone, rfl, rfl⟩, ?_, rfl⟩, ?_⟩
  · exact run_seq_eq_some.2 ⟨x ++ k, ms₁, ms₂, hident, hargs', rfl⟩
  · rw [Node.bareOfAll_append, Node.bareOfAll_append, hb₁, hb₂]

theorem keeps_pseudoTail (hk : Apart (v ++ k)) (he : Escape.Ends k) : Grammar.pseudoTail.Keeps u k v :=
  .choice keeps_numbered (keeps_named hk he) fun _ h => run_numbered_none h

/-- A name that ends in front of `u` takes the argument in `k` if that follows instead. -/
theorem consumes_named (hu : (call .ident).Consumes (s ++ u) (x ++ u)) (hn : Rule.nthName.run (s ++ u) = none)
    (hargs : (maybe (call .arguments)).Consumes (x ++ k) []) (hd : Detached k)
    (hx : x ≠ [] ∨ ∀ r, k ≠ '(' :: r) : named.Consumes (s ++ k) [] := by
  have hident := (keeps_ident ⟨stops_of_arguments hargs stops_nil, Or.inr hd.ends⟩).consumes (lasting_of_mute hd.mute) hu
  refine consumes_seq.2 ⟨s ++ k, consumes_absent.2 ⟨run_nthName_none hu hident hx hn, rfl⟩, ?_⟩
  exact consumes_seq.2 ⟨x ++ k, hident, hargs⟩

theorem completes_numbered (h : numbered.Reaches (w ++ u) u) : numbered.Completes w := by
  refine completes_seq h (fun h => ?_) (fun _ h => completes_nthArguments h) fun x t _ hx => keeps_nthName ?_
  · rw [eq_nil_of_leaf rfl h]
    exact ⟨"nth-col(n)".toList, detached_of rfl, _, rfl⟩
  · obtain ⟨b₁, y, b₂, -, -, -, hx⟩ := consumes_nthArguments.1 hx
    exact ⟨_, hx⟩

theorem completes_named (h : named.Reaches (w ++ u) u) : named.Completes w := by
  have hnil : named.Completes [] := ⟨['z'], detached_of rfl, _, rfl⟩
  rcases reaches_seq.1 h with h | ⟨y, hy, h⟩
  · rwa [eq_nil_of_leaf rfl (reaches_absent.1 h)]
  obtain ⟨hnone, rfl⟩ := consumes_absent.1 hy
  rcases reaches_seq.1 h with h | ⟨y, hy, h⟩
  · rwa [eq_nil_of_leaf rfl h]
  obtain ⟨x, rfl⟩ := exists_append_of_suffix (v := []) h.suffix
  by_cases hx : x = []
  · -- No argument is begun here: the name might be one that takes a number.
    subst hx
    exact ⟨[], .nil, consumes_named hy hnone ⟨_, rfl⟩ .nil (Or.inr fun r h => by cases h)⟩
  · obtain ⟨t, ht, hargs⟩ := completes_arguments hx (reaches_maybe.1 h)
    exact ⟨t, ht, consumes_named hy hnone (consumes_maybe.2 (Or.inl hargs)) ht (Or.inl hx)⟩

theorem completes_pseudoTail (h : Grammar.pseudoTail.Reaches (w ++ u) u) : Grammar.pseudoTail.Completes w :=
  completes_choice h completes_numbered completes_named fun _ _ hx => run_numbered_none hx

/-! Pseudo-classes and pseudo-elements. -/

theorem keeps_pseudoElement (hk : Apart (v ++ k)) (he : Escape.Ends k) : (call .pseudoElement).Keeps u k v :=
  keeps_call (.seq (fun _ _ => keeps_literal _) (keeps_pseudoTail hk he))

theorem keeps_pseudoClass (hk : Apart (v ++ k)) (he : Escape.Ends k) : (call .pseudoClass).Keeps u k v :=
  keeps_call (.seq (fun _ _ => keeps_char _) (keeps_pseudoTail hk he))

theorem completes_pseudoElement (h : (call .pseudoElement).Reaches (w ++ u) u) : (call .pseudoElement).Completes w := by
  refine completes_rule h ⟨[':', ':', 'z'], detached_of rfl, _, rfl⟩ fun h => ?_
  exact completes_seq_callFree rfl h (fun _ h => completes_pseudoTail h) fun _ _ _ _ => keeps_literal _

theorem completes_pseudoClass (h : (call .pseudoClass).Reaches (w ++ u) u) : (call .pseudoClass).Completes w := by
  refine completes_rule h ⟨[':', 'z'], detached_of rfl, _, rfl⟩ fun h => ?_
  exact completes_seq_callFree rfl h (fun _ h => completes_pseudoTail h) fun _ _ _ _ => keeps_char _

end SelectorSyntax.Selector.Spelling
