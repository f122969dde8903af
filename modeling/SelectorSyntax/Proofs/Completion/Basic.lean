import SelectorSyntax.Proofs.Completion.Tokens

namespace SelectorSyntax.Grammar.Expression

open Relation Text SelectorSyntax.Bracket Selector.Spelling

/-- Nothing that stands before the text goes on in it, neither a comment nor an escape. -/
structure Detached (k : List Char) : Prop where
  mute : Mute k
  ends : Escape.Ends k

/-- There is text behind which nothing is left if the expression is matched in front of it. -/
def Completes (e : Expression) (w : List Char) : Prop := ∃ t, Detached t ∧ e.Consumes (w ++ t) []

variable {e f : Expression} {r : Rule} {k s t u w : List Char}

theorem Detached.nil : Detached [] := ⟨⟨List.not_mem_nil, List.not_mem_nil⟩, fun c r h => by cases h⟩

theorem detached_of {c : Char}
    (hc : (CharClass.isHexDigit c || CharClass.isWhitespace c || (c :: s).any (· ∈ ['/', '*'])) = false) :
    Detached (c :: s) := by
  simp only [Bool.or_eq_false_iff] at hc
  obtain ⟨⟨hx, hw⟩, hs⟩ := hc
  have hnot {d : Char} (hd : d ∈ ['/', '*']) : d ∉ c :: s := fun h =>
    absurd (List.any_eq_true.2 ⟨d, h, decide_eq_true hd⟩) (Bool.eq_false_iff.1 hs)
  exact ⟨⟨hnot (by decide), hnot (by decide)⟩, .cons hx hw⟩

theorem mute_append (hs : Mute s) (ht : Mute t) : Mute (s ++ t) := by
  constructor
  · rw [List.mem_append, not_or]
    exact ⟨hs.slash, ht.slash⟩
  · rw [List.mem_append, not_or]
    exact ⟨hs.asterisk, ht.asterisk⟩

theorem Detached.append (hs : Detached s) (ht : Detached t) : Detached (s ++ t) := by
  refine ⟨mute_append hs.mute ht.mute, ?_⟩
  cases s with
  | nil => exact ht.ends
  | cons c s =>
      rintro d r ⟨⟩
      exact hs.ends c s rfl

theorem completes_call : (call r).Completes w ↔ (body r).Completes w := by
  simp only [Completes, consumes_call]

theorem completes_rule (h : (call r).Reaches (w ++ u) u) (hnil : (call r).Completes [])
    (hb : (body r).Reaches (w ++ u) u → (body r).Completes w) : (call r).Completes w := by
  rcases reaches_call.1 h with h | h
  · obtain rfl := List.append_left_eq_self.1 h.symm
    exact hnil
  · exact completes_call.2 (hb h)

theorem eq_nil_of_leaf (hr : (body r).callFree = true) (h : (call r).Reaches (w ++ u) u) : w = [] :=
  List.append_left_eq_self.1 ((reaches_leaf hr).1 h).symm

theorem completes_leaf (hr : (body r).callFree = true) (hnil : (call r).Completes [])
    (h : (call r).Reaches (w ++ u) u) : (call r).Completes w := by
  rwa [eq_nil_of_leaf hr h]

/-- What is complete in front of the end is followed by what can stand there. -/
theorem Completes.seq (h : e.Completes w) (hd : Detached k) (hk : e.Keeps [] k []) (hf : f.Consumes k []) :
    (seq e f).Completes w := by
  obtain ⟨t, ht, h⟩ := h
  have hw : e.Consumes (w ++ t ++ k) k :=
    hk.consumes (s := w ++ t) (lasting_of_mute hd.mute) (by rwa [List.append_nil])
  refine ⟨t ++ k, ht.append hd, consumes_seq.2 ⟨k, ?_, hf⟩⟩
  rwa [← List.append_assoc]

theorem Completes.seq_nil (h : e.Completes w) (hf : f.Consumes [] []) : (Expression.seq e f).Completes w :=
  h.seq .nil keeps_self hf

/-- What the second part lacks is found for it alone; the first one has to end in front of it as before. -/
theorem completes_seq (h : (seq e f).Reaches (w ++ u) u) (he : e.Reaches (w ++ u) u → (seq e f).Completes w)
    (hf : ∀ ⦃x⦄, f.Reaches (x ++ u) u → f.Completes x)
    (hk : ∀ ⦃x t⦄, Detached t → f.Consumes (x ++ t) [] → e.Keeps u t x) : (seq e f).Completes w := by
  rcases reaches_seq.1 h with h | ⟨y, hy, h⟩
  · exact he h
  · obtain ⟨x, rfl⟩ := exists_append_of_suffix (v := []) h.suffix
    obtain ⟨t, ht, hx⟩ := hf h
    exact ⟨t, ht, consumes_seq.2 ⟨x ++ t, (hk ht hx).consumes (lasting_of_mute ht.mute) hy, hx⟩⟩

theorem completes_seq_callFree (he : e.callFree = true) (h : (seq e f).Reaches (w ++ u) u)
    (hf : ∀ ⦃x⦄, f.Reaches (x ++ u) u → f.Completes x)
    (hk : ∀ ⦃x t⦄, Detached t → f.Consumes (x ++ t) [] → e.Keeps u t x) : (seq e f).Completes w :=
  completes_seq h (fun h => absurd h (not_reaches_callFree he)) hf hk

theorem completes_choice (h : (choice e f).Reaches (w ++ u) u) (he : e.Reaches (w ++ u) u → e.Completes w)
    (hf : f.Reaches (w ++ u) u → f.Completes w) (hn : ∀ ⦃s t⦄, f.Consumes s t → e.run Rule.run s = none) :
    (choice e f).Completes w := by
  rcases reaches_choice.1 h with h | ⟨-, h⟩
  · obtain ⟨t, ht, hx⟩ := he h
    exact ⟨t, ht, consumes_choice.2 (Or.inl hx)⟩
  · obtain ⟨t, ht, hx⟩ := hf h
    exact ⟨t, ht, consumes_choice.2 (Or.inr ⟨hn hx, hx⟩)⟩

/-- Rounds are taken in front of another one as they were. -/
theorem rounds_consume (hk : ∀ ⦃x y⦄, e.Consumes (x ++ k) y → e.Keeps u k x) (hl : ∀ ns, Lasting u k ns)
    (h : ReflTransGen e.Consumes (s ++ u) (w ++ u)) (hw : e.Consumes (w ++ k) t) :
    ReflTransGen e.Consumes (s ++ k) (w ++ k) := by
  generalize hs : s ++ u = a at h
  induction h using ReflTransGen.head_induction_on generalizing s with
  | refl =>
      obtain rfl := eq_of_append_eq hs
      exact .refl
  | head hstep hrest ih =>
      subst hs
      obtain ⟨x, rfl⟩ := exists_append_of_suffix (rounds_suffix hrest)
      have ih := ih rfl
      have hnext : ∃ y, e.Consumes (x ++ k) y := by
        rcases ReflTransGen.cases_head ih with hx | ⟨y, hy, -⟩
        · exact ⟨t, hx ▸ hw⟩
        · exact ⟨y, hy⟩
      obtain ⟨y, hy⟩ := hnext
      exact .head ((hk hy).consumes hl hstep) ih

/-- Rounds are kept in front of the one that is completed. -/
theorem completes_star (he : e.takes = true) (h : (star e).Reaches (w ++ u) u)
    (ih : ∀ ⦃x⦄, e.Reaches (x ++ u) u → e.Completes x)
    (hk : ∀ ⦃x t y⦄, Detached t → e.Consumes (x ++ t) y → e.Keeps u t x) : (star e).Completes w := by
  obtain ⟨y, hy, h⟩ := reaches_star.1 h
  obtain ⟨x, rfl⟩ := exists_append_of_suffix (v := []) h.suffix
  obtain ⟨t, ht, hx⟩ := ih h
  have hrounds := rounds_consume (fun _ _ => hk ht) (lasting_of_mute ht.mute) hy hx
  exact ⟨t, ht, (consumes_star he).2 ⟨hrounds.tail hx, run_nil_eq_none he⟩⟩

/-! Blanks in front of what does not begin with one. -/

theorem keeps_seq_blanks {v : List Char} (he : e.takes = true)
    (hb : ('/' :: whitespace).all (fun c => !e.begins c (Rule.begins c)) = true) (h : e.Keeps u k v) :
    (seq (maybe ws) e).Keeps u k v :=
  .seq (fun _ hx => keeps_blanks (settled_of_consumes he hb hx)) h

theorem completes_seq_blanks (he : e.takes = true)
    (hb : ('/' :: whitespace).all (fun c => !e.begins c (Rule.begins c)) = true)
    (h : (seq (maybe ws) e).Reaches (w ++ u) u) (ih : ∀ ⦃x⦄, e.Reaches (x ++ u) u → e.Completes x) :
    (seq (maybe ws) e).Completes w :=
  completes_seq_callFree rfl h ih fun _ _ _ hx => keeps_blanks (settled_of_consumes he hb hx)

end SelectorSyntax.Grammar.Expression
