import SelectorSyntax.Proofs.Completion.Basic

namespace SelectorSyntax.Bracket

open Grammar Grammar.Expression Selector.Spelling Text

/-- From one place to a later one brackets are opened that are closed by `cs`, the innermost first, and all
others are in pairs. -/
inductive Unclosed : List Char → List Char → List Char → Prop
  | balanced {s u ps} : Balanced s u ps → Unclosed s u []
  | opener {s o c r u ps cs} : Balanced s (o :: r) ps → isOpener o = true → openerOf? c = some o →
      Unclosed r u cs → Unclosed s u (cs ++ [c])

variable {c o : Char} {closer : Rule} {cs k s t u v w : List Char} {ns : List Node} {ps : List (List Char × List Char)}

theorem Unclosed.after (hb : Balanced s t ps) (h : Unclosed t u cs) : Unclosed s u cs := by
  cases h with
  | balanced h => exact .balanced (hb.trans h)
  | opener h ho hc hr => exact .opener (hb.trans h) ho hc hr

theorem Unclosed.suffix (h : Unclosed s u cs) : u <:+ s := by
  induction h with
  | balanced h => exact h.suffix
  | opener h _ _ _ ih => exact ih.trans ((List.suffix_cons _ _).trans h.suffix)

theorem detached_closer (hc : openerOf? c = some o) : Detached [c] := by
  rcases closer_cases hc with ⟨-, rfl⟩ | ⟨-, rfl⟩
  · exact detached_of rfl
  · exact detached_of rfl

theorem Unclosed.detached (h : Unclosed s u cs) : Detached cs := by
  induction h with
  | balanced => exact .nil
  | opener _ _ hc _ ih => exact ih.append (detached_closer hc)

theorem Unclosed.replace (h : Unclosed (w ++ u) u cs) (hk : Mute k) : Unclosed (w ++ k) k cs := by
  generalize hs : w ++ u = s at h
  induction h generalizing w with
  | balanced h =>
      subst hs
      obtain ⟨ps, hps⟩ := Balanced.replace (u := []) (guards_mute hk) trivial h
      exact .balanced hps
  | @opener s o c r u ps cs h ho hc hr ih =>
      subst hs
      obtain ⟨x, rfl⟩ := exists_append_of_suffix (v := []) hr.suffix
      obtain ⟨qs, hq⟩ := Balanced.replace (u := o :: x) (guards_mute hk) trivial h
      exact .opener hq ho hc (ih rfl)

theorem Unclosed.close (h : Unclosed s u cs) (hu : u = cs ++ k) : ∃ ps, Balanced s k ps := by
  induction h generalizing k with
  | balanced h => exact ⟨_, hu ▸ h⟩
  | @opener s o c r u ps cs h ho hc hr ih =>
      obtain ⟨qs, hq⟩ := ih (k := c :: k) (by rw [hu, List.append_assoc, List.singleton_append])
      exact ⟨_, h.trans (.enclose ho hc hq)⟩

/-- The closers make the text balanced. -/
theorem Unclosed.complete (h : Unclosed (w ++ u) u cs) (hk : Mute k) : ∃ ps, Balanced (w ++ (cs ++ k)) k ps :=
  (h.replace (mute_append h.detached.mute hk)).close rfl

/-! Where rules are tried in an argument. -/

theorem balanced_rounds (h : Relation.ReflTransGen round.Consumes s t) : ∃ ps, Balanced s t ps := by
  induction h with
  | refl => exact ⟨[], .nil⟩
  | tail _ hr ih =>
      obtain ⟨ps, hb⟩ := ih
      obtain ⟨qs, hr⟩ := balanced_round hr
      exact ⟨_, hb.trans hr⟩

/-- Up to what closes an argument, rules are tried in the argument or behind it. -/
theorem unclosed_inside (hcl : (body closer).callFree = true)
    (h : (seqs [maybe ws, maybe (call .argument), maybe ws, call closer]).Reaches s u)
    (ih : ∀ r, r.length ≤ s.length → Blank.comment? r = none → (call .argument).Reaches r u → ∃ cs, Unclosed r u cs) :
    ∃ cs, Unclosed s u cs := by
  obtain ⟨x, hx, hrest⟩ := (reaches_seq_callFree rfl).1 h
  obtain rfl := consumes_blanks.1 hx
  have hsettled := (Blank.settled_skip s).comment
  rcases reaches_seq.1 hrest with hin | ⟨y, hy, hend⟩
  · obtain ⟨cs, hcs⟩ := ih _ (Blank.skip_suffix s).length_le hsettled (reaches_maybe.1 hin)
    exact ⟨cs, hcs.after (balanced_skip s)⟩
  · obtain ⟨z, hz, hlast⟩ := (reaches_seq_callFree rfl).1 hend
    obtain rfl := consumes_blanks.1 hz
    obtain rfl := (reaches_leaf hcl).1 hlast
    obtain ⟨ps, hb⟩ := balanced_maybe_argument hsettled hy
    exact ⟨[], .balanced ((balanced_skip s).trans (hb.trans (balanced_skip y)))⟩

theorem unclosed_group (hcl : (body closer).callFree = true) (h : (group o closer).Reaches s u)
    (ih : ∀ r, r.length < s.length → Blank.comment? r = none → (call .argument).Reaches r u → ∃ cs, Unclosed r u cs) :
    ∃ r cs, s = o :: r ∧ Unclosed r u cs := by
  obtain ⟨r, hr, hbehind⟩ := (reaches_seq_callFree rfl).1 h
  obtain rfl := consumes_exactly.1 hr
  obtain ⟨cs, hcs⟩ := unclosed_inside hcl hbehind fun x hx => ih x (Nat.lt_succ_of_le hx)
  exact ⟨r, cs, rfl, hcs⟩

theorem unclosed_item
    (ih : ∀ r, r.length < s.length → Blank.comment? r = none → (call .argument).Reaches r u → ∃ cs, Unclosed r u cs)
    (h : argItem.Reaches s u) : ∃ cs, Unclosed s u cs := by
  have hleaf {r : Rule} (hr : (body r).callFree = true) (h : (call r).Reaches s u) : ∃ cs, Unclosed s u cs :=
    ⟨[], (reaches_leaf hr).1 h ▸ .balanced .nil⟩
  obtain ⟨e, he, h⟩ := reaches_choices h
  simp only [List.mem_cons, List.not_mem_nil, or_false] at he
  rcases he with rfl | rfl | rfl | rfl | rfl
  · exact hleaf rfl h
  · exact hleaf rfl h
  · exact hleaf rfl h
  · rcases reaches_call.1 h with rfl | h
    · exact ⟨[], .balanced .nil⟩
    · rcases reaches_choice.1 h with h | ⟨-, h⟩
      · obtain ⟨r, cs, rfl, hcs⟩ := unclosed_group rfl h ih
        exact ⟨_, .opener (c := ')') .nil rfl rfl hcs⟩
      · obtain ⟨r, cs, rfl, hcs⟩ := unclosed_group rfl h ih
        exact ⟨_, .opener (c := ']') .nil rfl rfl hcs⟩
  · exact hleaf rfl h

theorem unclosed_argument (hs : Blank.comment? s = none) (h : (call .argument).Reaches s u) :
    ∃ cs, Unclosed s u cs := by
  induction hn : s.length using Nat.strongRecOn generalizing s with
  | ind n ih =>
      have hitem {x : List Char} (hx : x.length ≤ n) (h : argItem.Reaches x u) : ∃ cs, Unclosed x u cs :=
        unclosed_item (fun r hr hc hr' => ih r.length (by omega) hc hr' rfl) h
      rcases reaches_call.1 h with rfl | h
      · exact ⟨[], .balanced .nil⟩
      · rcases reaches_seq.1 h with h | ⟨t, ⟨ns, ht⟩, h⟩
        · exact hitem (Nat.le_of_eq hn) h
        · have hb := balanced_argItem hs ht
          obtain ⟨v, hv, h⟩ := reaches_star.1 h
          obtain ⟨ps, hrounds⟩ := balanced_rounds hv
          have hle := (hrounds.suffix.trans hb.suffix).length_le
          rcases reaches_seq.1 h with h | ⟨y, hy, h⟩
          · obtain rfl := (reaches_leaf rfl).1 (reaches_maybe.1 h)
            exact ⟨[], .balanced (hb.trans hrounds)⟩
          · obtain ⟨qs, hspace⟩ := balanced_maybe_space hy
            obtain ⟨cs, hcs⟩ := hitem (by have hyv := hy.suffix.length_le; omega) h
            exact ⟨cs, hcs.after (hb.trans (hrounds.trans hspace))⟩

/-! Arguments that can be completed. -/

theorem completes_arguments (hw : w ≠ []) (h : (call .arguments).Reaches (w ++ u) u) :
    (call .arguments).Completes w := by
  rcases reaches_call.1 h with h | h
  · exact absurd (List.append_left_eq_self.1 h.symm) hw
  · obtain ⟨r, cs, hr, hcs⟩ := unclosed_group rfl h fun r _ hr h => unclosed_argument hr h
    obtain ⟨x, rfl⟩ := exists_append_of_suffix (v := []) hcs.suffix
    obtain rfl : w = '(' :: x := eq_of_append_eq hr
    have hclose : Detached [')'] := detached_closer rfl
    obtain ⟨ps, hb⟩ := hcs.complete hclose.mute
    obtain ⟨ms, hrun⟩ := run_arguments_of_balanced hb
    exact ⟨cs ++ [')'], hcs.detached.append hclose, _, hrun⟩

theorem completes_text (h : (call .text).Reaches (w ++ u) u) : (call .text).Completes w := by
  have hopen : ∃ cs, Unclosed (w ++ u) u cs := by
    generalize w ++ u = s at h
    rcases reaches_call.1 h with rfl | h
    · exact ⟨[], .balanced .nil⟩
    · exact unclosed_inside rfl h fun _ _ hc h => unclosed_argument hc h
  obtain ⟨cs, hcs⟩ := hopen
  obtain ⟨ps, hb⟩ := hcs.complete Detached.nil.mute
  rw [List.append_nil] at hb
  have hread : (reading [] (w ++ cs)).isSome = true := (hb.reading_isSome []).trans (by rw [reading]; rfl)
  obtain ⟨⟨t, ns⟩, hrun⟩ := run_text_of_reading hread
  obtain rfl := eq_nil_of_run (Or.inr rfl) hrun
  exact ⟨cs, hcs.detached, ns, hrun⟩

end SelectorSyntax.Bracket
