import SelectorSyntax.Proofs.Bracket.Walk
import SelectorSyntax.Proofs.Tokens.Escape
import SelectorSyntax.Proofs.Tokens.StringAgreement

namespace SelectorSyntax.Bracket

open Grammar Text CharClass

/-- What follows the piece at the front of a text that is taken as a whole and is no bracket: quoted text as
the grammar takes it, a backslash with the character that it escapes, a closed comment, or any other
character. -/
def unit? (s : List Char) : Option (List Char) :=
  match s with
  | [] => none
  | c :: r =>
    if isQuote c then (Rule.string.run (c :: r)).map Prod.fst
    else if c = '\\' then if Escape.isValid (c :: r) then some r.tail else none
    else if isOpener c || (openerOf? c).isSome then none
    else some ((Blank.comment? (c :: r)).getD r)

/-- The characters that are pieces by themselves unless a comment begins with them. -/
def isPlain (c : Char) : Bool := !(isQuote c || c = '\\' || isOpener c || (openerOf? c).isSome)

/-- The text from one place to a later one has all its brackets in pairs. The pairs are listed in the order
in which they close, each as the place of its opener and the place of its closer. -/
inductive Balanced : List Char → List Char → List (List Char × List Char) → Prop
  | nil {s} : Balanced s s []
  | unit {s t u ps} : unit? s = some t → Balanced t u ps → Balanced s u ps
  | group {o c s t u ps qs} : isOpener o = true → openerOf? c = some o → Balanced s (c :: t) ps →
      Balanced t u qs → Balanced (o :: s) u (ps ++ (o :: s, c :: t) :: qs)

variable {o c : Char} {s t u x y : List Char} {ns : List Node} {ps qs : List (List Char × List Char)}

theorem unit?_plain (hc : isPlain c = true) : unit? (c :: s) = some ((Blank.comment? (c :: s)).getD s) := by
  simp only [isPlain, Bool.not_eq_true', Bool.or_eq_false_iff, decide_eq_false_iff_not] at hc
  obtain ⟨⟨⟨hq, hb⟩, ho⟩, hcl⟩ := hc
  simp [unit?, hq, hb, ho, hcl]

theorem unit?_escape (hc : isNewline c = false) : unit? ('\\' :: c :: s) = some s := by
  have hv : Escape.isValid ('\\' :: c :: s) = true := by simp [Escape.isValid, hc]
  rw [unit?, if_neg (by decide), if_pos rfl, if_pos hv, List.tail_cons]

theorem unit?_comment (h : Blank.comment? s = some t) : unit? s = some t := by
  cases s with
  | nil => cases h
  | cons c s =>
      by_cases hc : c = '/'
      · subst hc
        rw [unit?_plain rfl, h, Option.getD_some]
      · rw [comment?_eq_none hc] at h
        cases h

theorem unit?_quoted (h : Rule.string.run s = some (t, ns)) : unit? s = some t := by
  obtain ⟨v, hv, -⟩ := Quoted.run_string_iff_read.1 ⟨ns, h⟩
  cases s with
  | nil => cases hv
  | cons q s =>
      rw [Quoted.read] at hv
      split at hv
      next hq => rw [unit?, if_pos hq, h, Option.map_some]
      next => cases hv

theorem isPlain_of_not_mem (hn : c ∉ ['(', ')', '[', ']', '"', '\'', '\\']) : isPlain c = true := by
  simp only [List.mem_cons, List.not_mem_nil, or_false, not_or] at hn
  obtain ⟨h1, h2, h3, h4, h5, h6, h7⟩ := hn
  simp [isPlain, isQuote, isOpener, openerOf?_eq_none h2 h4, h1, h3, h5, h6, h7]

theorem isPlain_of_inert (h : isInert c = true) : isPlain c = true ∧ c ≠ '/' := by
  simp only [isInert, Bool.not_eq_true', Bool.or_eq_false_iff, decide_eq_false_iff_not] at h
  obtain ⟨⟨⟨⟨hq, ho⟩, hcl⟩, hb⟩, hs⟩ := h
  exact ⟨by simp [isPlain, hq, ho, hcl, hb], hs⟩

theorem unit?_inert (h : isInert c = true) : unit? (c :: s) = some s := by
  obtain ⟨hp, hs⟩ := isPlain_of_inert h
  rw [unit?_plain hp, comment?_eq_none hs, Option.getD_none]

/-- The four kinds of pieces. -/
theorem unit?_cases (h : unit? s = some t) :
    (∃ ns, Rule.string.run s = some (t, ns)) ∨ (∃ c, isNewline c = false ∧ s = '\\' :: c :: t) ∨
      Blank.comment? s = some t ∨ ∃ c, isPlain c = true ∧ Blank.comment? s = none ∧ s = c :: t := by
  cases s with
  | nil => cases h
  | cons c r =>
      rw [unit?] at h
      by_cases hq : isQuote c = true
      · rw [if_pos hq] at h
        obtain ⟨⟨u, ns⟩, hu, rfl⟩ := Option.map_eq_some_iff.1 h
        exact Or.inl ⟨ns, hu⟩
      rw [if_neg hq] at h
      by_cases hb : c = '\\'
      · subst hb
        rw [if_pos rfl] at h
        split at h
        next hv =>
          cases r with
          | nil => cases hv
          | cons d r =>
              cases h
              exact Or.inr (Or.inl ⟨d, by simpa [Escape.isValid] using hv, rfl⟩)
        next => cases h
      rw [if_neg hb] at h
      split at h
      next => cases h
      next hbr =>
        cases hcm : Blank.comment? (c :: r) with
        | some v =>
            rw [hcm] at h
            cases h
            exact Or.inr (Or.inr (Or.inl rfl))
        | none =>
            rw [hcm] at h
            cases h
            refine Or.inr (Or.inr (Or.inr ⟨c, ?_, rfl, rfl⟩))
            simp only [Bool.or_eq_true, not_or] at hbr
            simp [isPlain, hq, hb, hbr.1, hbr.2]

theorem unit?_opener (ho : isOpener o = true) : unit? (o :: s) = none := by
  rcases opener_cases ho with rfl | rfl <;> rfl

theorem unit?_closer (hc : openerOf? c = some o) : unit? (c :: s) = none := by
  rcases closer_cases hc with ⟨-, rfl⟩ | ⟨-, rfl⟩ <;> rfl

theorem isOpener_of_closer (hc : openerOf? c = some o) : isOpener c = false := by
  rcases closer_cases hc with ⟨-, rfl⟩ | ⟨-, rfl⟩ <;> rfl

theorem unit?_length (h : unit? s = some t) : t.length < s.length := by
  rcases unit?_cases h with ⟨ns, h⟩ | ⟨c, -, rfl⟩ | h | ⟨c, -, -, rfl⟩
  · exact Rule.lawful_run.shorter rfl h
  · exact Nat.lt_succ_of_lt (Nat.lt_succ_self _)
  · exact Blank.comment?_length h
  · exact Nat.lt_succ_self _

/-- The walk takes no note of a piece without brackets. -/
theorem passes_unit (h : unit? s = some t) : Passes s t := by
  rcases unit?_cases h with ⟨ns, h⟩ | ⟨c, -, rfl⟩ | h | ⟨c, hc, hcm, rfl⟩
  · obtain ⟨v, hv, -⟩ := Quoted.run_string_iff_read.1 ⟨ns, h⟩
    cases s with
    | nil => cases hv
    | cons q s => exact fun d st => walk_quoted hv
  · exact fun d st => walk_escape
  · exact fun d st => walk_comment h
  · simp only [isPlain, Bool.not_eq_true', Bool.or_eq_false_iff, decide_eq_false_iff_not, Option.isSome_eq_false_iff,
      Option.isNone_iff_eq_none] at hc
    obtain ⟨⟨⟨hq, hb⟩, ho⟩, hcl⟩ := hc
    exact fun d st => walk_other hb hq hcm ho hcl

theorem Balanced.trans (h : Balanced s t ps) (h' : Balanced t u qs) : Balanced s u (ps ++ qs) := by
  induction h with
  | nil => exact h'
  | unit hu _ ih => exact .unit hu (ih h')
  | group ho hc hin _ _ ih =>
      rw [List.append_assoc, List.cons_append]
      exact .group ho hc hin (ih h')

theorem Balanced.of_unit (h : unit? s = some t) : Balanced s t [] := .unit h .nil

/-- The pair of an opener and a closer around balanced text. -/
theorem Balanced.enclose (ho : isOpener o = true) (hc : openerOf? c = some o) (h : Balanced s (c :: t) ps) :
    Balanced (o :: s) t (ps ++ [(o :: s, c :: t)]) := .group ho hc h .nil

/-- Without pairs there are only pieces, of which the walk takes no note. -/
theorem Balanced.passes (h : Balanced s t []) : Passes s t := by
  generalize hps : ([] : List (List Char × List Char)) = ps at h
  induction h with
  | nil => exact .refl _
  | unit hu _ ih => exact (passes_unit hu).trans (ih hps)
  | group => simp at hps

/-- What is left begins with a closing bracket. -/
def AtCloser (s : List Char) : Prop := ∃ c o t, s = c :: t ∧ openerOf? c = some o

theorem AtCloser.unit?_eq_none (h : AtCloser s) : unit? s = none := by
  obtain ⟨c, o, t, rfl, hc⟩ := h
  exact unit?_closer hc

theorem not_atCloser_of_opener (ho : isOpener o = true) : ¬ AtCloser (o :: s) := by
  rintro ⟨c, p, t, h, hc⟩
  cases h
  rw [isOpener_of_closer hc] at ho
  cases ho

/-- Balanced text leaves no closer over, so the first one left over is where it ends. -/
theorem Balanced.closer_unique (h : Balanced s x ps) (h' : Balanced s y qs) (hx : AtCloser x)
    (hy : AtCloser y) : x = y := by
  induction h generalizing y qs with
  | nil =>
      cases h' with
      | nil => rfl
      | unit hu =>
          rw [hx.unit?_eq_none] at hu
          cases hu
      | group ho => exact absurd hx (not_atCloser_of_opener ho)
  | unit hu _ ih =>
      cases h' with
      | nil =>
          rw [hy.unit?_eq_none] at hu
          cases hu
      | unit hu' h' =>
          rw [hu] at hu'
          cases hu'
          exact ih h' hx hy
      | group ho =>
          rw [unit?_opener ho] at hu
          cases hu
  | group ho hc _ _ ihin ih =>
      cases h' with
      | nil => exact absurd hy (not_atCloser_of_opener ho)
      | unit hu =>
          rw [unit?_opener ho] at hu
          cases hu
      | group _ hc' hin' h' =>
          have heq := ihin hin' ⟨_, _, _, rfl, hc⟩ ⟨_, _, _, rfl, hc'⟩
          cases heq
          exact ih h' hx hy

end SelectorSyntax.Bracket
