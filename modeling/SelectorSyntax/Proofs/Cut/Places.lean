import SelectorSyntax.Proofs.Bracket.Exposed
import SelectorSyntax.Proofs.Completion.Brackets

namespace SelectorSyntax.Bracket

open Grammar Grammar.Expression Selector.Spelling Text CharClass

/-! Texts that are cut in two: `u` is the second part. -/

/-- From one place to a later one the text has `u` left strictly in between. -/
def Within (u s t : List Char) : Prop := t.length < u.length ∧ u.length < s.length

/-- The scan of the first place gets to the second, piece by piece. -/
inductive Visits : List Char → List Char → Prop
  | here {s} : Visits s s
  | next {s t u} : piece? s = some t → Visits t u → Visits s u

/-- The text is cut within no comment that the scan of it skips. -/
def Unsplit (u s : List Char) : Prop := ∀ ⦃v t⦄, Visits s v → Blank.comment? v = some t → ¬ Within u v t

/-- The tokens that must not be cut. -/
def solid : List Rule := [.ident, .string, .number, .nthValue, .attributeMatcher, .attributeModifier]

/-- The cut is within none of the tokens among some nodes. -/
def Uncut (u : List Char) (ns : List Node) : Prop :=
  ∀ n ∈ Node.familyOfAll ns, n.rule ∈ solid → ¬ Within u n.start n.stop

variable {c o : Char} {r : Rule} {cs k s t u v w x y : List Char} {ns ms : List Node}
  {ps : List (List Char × List Char)}

theorem uncut_append : Uncut u (ns ++ ms) ↔ Uncut u ns ∧ Uncut u ms := by
  simp only [Uncut, Node.mem_familyOfAll_append, or_imp, forall_and]

theorem Uncut.node (h : Uncut u [⟨r, s, t, ns⟩]) : (r ∈ solid → ¬ Within u s t) ∧ Uncut u ns := by
  have hmem (n : Node) : n ∈ Node.familyOfAll [⟨r, s, t, ns⟩] ↔ n = ⟨r, s, t, ns⟩ ∨ n ∈ Node.familyOfAll ns := by
    simp [Node.familyOfAll, Node.family]
  exact ⟨h _ ((hmem _).2 (Or.inl rfl)), fun n hn => h n ((hmem n).2 (Or.inr hn))⟩

theorem Visits.trans (h : Visits s t) (h' : Visits t u) : Visits s u := by
  induction h with
  | here => exact h'
  | next hp _ ih => exact .next hp (ih h')

/-- A text with no slash has no comment to be cut. -/
theorem unsplit_of_slash (h : '/' ∉ s) : Unsplit u s := by
  intro v t hv hc
  induction hv with
  | @here s =>
      cases s with
      | nil => cases hc
      | cons c s =>
          rw [comment?_eq_none fun hcs => h (hcs ▸ List.mem_cons_self)] at hc
          cases hc
  | @next s _ _ hp _ ih =>
      cases s with
      | nil => cases hp
      | cons c s => exact ih (fun hm => h (List.mem_cons_of_mem c ((piece?_suffix hp).subset hm))) hc

theorem Unsplit.visits (h : Unsplit u s) (ht : Visits s t) : Unsplit u t := fun _ _ hv => h (ht.trans hv)

theorem piece?_bracket (hc : isBracket c = true) (s : List Char) : piece? (c :: s) = some s := by
  rcases bracket_cases hc with ho | ⟨o, hcl⟩
  · rcases opener_cases ho with rfl | rfl <;> rfl
  · rcases closer_cases hcl with ⟨-, rfl⟩ | ⟨-, rfl⟩ <;> rfl

theorem isBracket_of_opener (ho : isOpener o = true) : isBracket o = true := by rw [isBracket, ho, Bool.true_or]

theorem isBracket_of_closer (hc : openerOf? c = some o) : isBracket c = true := by
  rw [isBracket, hc, Option.isSome_some, Bool.or_true]

/-- What is taken as a whole by the grammar is so by the scan. -/
theorem piece?_of_unit (h : unit? s = some t) : piece? s = some t := by
  rcases unit?_cases h with ⟨ns, h⟩ | ⟨c, -, rfl⟩ | h | ⟨c, hc, hcm, rfl⟩
  · obtain ⟨v, hv, -⟩ := Quoted.run_string_iff_read.1 ⟨ns, h⟩
    cases s with
    | nil => cases hv
    | cons q s =>
        have hq : isQuote q = true := by
          by_contra hq
          rw [Quoted.read, if_neg hq] at hv
          cases hv
        have hb : q ≠ '\\' := by
          rintro rfl
          cases hq
        rw [piece?, if_neg hb, if_pos hq, hv]
        rfl
  · rfl
  · cases s with
    | nil => cases h
    | cons c s =>
        have hc : c = '/' := by
          by_contra hc
          rw [comment?_eq_none hc] at h
          cases h
        subst hc
        rw [piece?, if_neg (by decide), if_neg (by decide), h, Option.getD_some]
  · simp only [isPlain, Bool.not_eq_true', Bool.or_eq_false_iff, decide_eq_false_iff_not] at hc
    obtain ⟨⟨⟨hq, hb⟩, -⟩, -⟩ := hc
    rw [piece?, if_neg hb, if_neg (by simp [hq]), hcm, Option.getD_none]

theorem Balanced.visits (h : Balanced s t ps) : Visits s t := by
  induction h with
  | nil => exact .here
  | unit hu _ ih => exact .next (piece?_of_unit hu) ih
  | group ho hc _ _ ihin ih =>
      exact .next (piece?_bracket (isBracket_of_opener ho) _)
        (ihin.trans (.next (piece?_bracket (isBracket_of_closer hc) _) ih))

/-! Blanks. -/

theorem exists_append_of_length (h : t <:+ x ++ u) (hu : u.length ≤ t.length) : ∃ y, t = y ++ u := by
  obtain ⟨y, hy⟩ := List.suffix_of_suffix_length_le (List.suffix_append x u) h hu
  exact ⟨y, hy.symm⟩

/-- What ends behind the cut begins behind it or has the cut within. -/
theorem exists_append_of_not_within (h : t <:+ x ++ u) (hx : x ≠ []) (hw : ¬ Within u (x ++ u) t) : ∃ y, t = y ++ u := by
  refine exists_append_of_length h (Nat.not_lt.1 fun hlt => hw ⟨hlt, ?_⟩)
  rw [List.length_append]
  exact Nat.lt_add_of_pos_left (List.length_pos_iff.2 hx)

theorem settled_cut (h : Blank.Settled (x ++ u)) : Blank.Settled x := by
  refine ⟨?_, fun c r hx => h.whitespace c (r ++ u) (by rw [hx, List.cons_append])⟩
  cases hc : Blank.comment? x with
  | none => rfl
  | some y =>
      have hcomment := comment?_replace (s := x) (t := []) (u := y) (by rw [List.append_nil, List.append_nil, hc]) u
      rw [h.comment] at hcomment
      cases hcomment

/-- Blanks end in front of the cut as they do without what is behind it, or they reach the cut. -/
theorem skip_cut (h : Unsplit u (x ++ u)) :
    (∃ y, Blank.skip (x ++ u) = y ++ u ∧ Blank.skip x = y) ∨ Blank.skip x = [] ∧ ∃ ps, Balanced (x ++ u) u ps := by
  induction hn : x.length using Nat.strongRecOn generalizing x with
  | ind n ih =>
      have hstep {y : List Char} (hu : unit? (x ++ u) = some (y ++ u)) (hlt : y.length < x.length)
          (hskip : Blank.skip (x ++ u) = Blank.skip (y ++ u)) (hx : Blank.skip x = Blank.skip y) :
          (∃ y, Blank.skip (x ++ u) = y ++ u ∧ Blank.skip x = y) ∨ Blank.skip x = [] ∧ ∃ ps, Balanced (x ++ u) u ps := by
        rw [hskip, hx]
        refine (ih y.length (hn ▸ hlt) (h.visits (.next (piece?_of_unit hu) .here)) rfl).imp_right ?_
        rintro ⟨hy, ps, hps⟩
        exact ⟨hy, ps, .unit hu hps⟩
      cases x with
      | nil => exact Or.inr ⟨Blank.skip_nil, [], .nil⟩
      | cons c x =>
          by_cases hc : isWhitespace c = true
          · have hinert := inert_of (p := isWhitespace) (by decide) hc
            exact hstep (unit?_inert hinert) (Nat.lt_succ_self _) (Blank.skip_whitespace hc) (Blank.skip_whitespace hc)
          · cases hcm : Blank.comment? (c :: x ++ u) with
            | some t =>
                obtain ⟨y, rfl⟩ := exists_append_of_not_within (Blank.comment?_suffix hcm) (List.cons_ne_nil c x) (h .here hcm)
                have hx : Blank.comment? (c :: x) = some y := by simpa using comment?_replace hcm []
                exact hstep (unit?_comment hcm) (Blank.comment?_length hx) (Blank.skip_comment hcm) (Blank.skip_comment hx)
            | none =>
                have hs : Blank.Settled (c :: x ++ u) := ⟨hcm, fun d r hd => by
                  obtain rfl := (List.cons.inj hd).1
                  simpa using hc⟩
                exact Or.inl ⟨c :: x, hs.skip_eq, (settled_cut hs).skip_eq⟩

end SelectorSyntax.Bracket
