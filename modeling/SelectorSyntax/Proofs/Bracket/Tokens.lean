import SelectorSyntax.Proofs.Bracket.Balanced
import SelectorSyntax.Proofs.Tokens.Blank

namespace SelectorSyntax.Bracket

open Grammar Grammar.Expression Text CharClass

variable {e f : Expression} {c : Char} {s t u : List Char} {ns : List Node}

/-- The walk takes no note of what an expression matches. -/
def Skips (e : Expression) : Prop := ∀ ⦃s t ns⦄, e.run Rule.run s = some (t, ns) → Passes s t

/-- The text from one place to a later one has no brackets, only pieces between which a reader may stop, whatever
follows it. -/
def Smooth (s t : List Char) : Prop := ∃ w, s = w ++ t ∧ ∀ k, Balanced (w ++ k) k []

theorem Smooth.balanced (h : Smooth s t) : Balanced s t [] := by
  obtain ⟨w, rfl, hw⟩ := h
  exact hw t

theorem Smooth.nil : Smooth s s := ⟨[], rfl, fun _ => .nil⟩

theorem Smooth.trans (h : Smooth s t) (h' : Smooth t u) : Smooth s u := by
  obtain ⟨w, rfl, hw⟩ := h
  obtain ⟨v, rfl, hv⟩ := h'
  refine ⟨w ++ v, (List.append_assoc w v u).symm, fun k => ?_⟩
  rw [List.append_assoc]
  exact (hw (v ++ k)).trans (hv k)

theorem Smooth.inert (hc : isInert c = true) : Smooth (c :: s) s := ⟨[c], rfl, fun _ => .of_unit (unit?_inert hc)⟩

theorem Smooth.escape (hc : isNewline c = false) : Smooth ('\\' :: c :: s) s :=
  ⟨['\\', c], rfl, fun _ => .of_unit (unit?_escape hc)⟩

theorem Smooth.comment (h : Blank.comment? s = some t) : Smooth s t := by
  obtain ⟨w, rfl, hw⟩ := Blank.comment?_cut h
  exact ⟨w, rfl, fun k => .of_unit (unit?_comment (hw k))⟩

/-- What an expression matches is smooth. -/
def Flat (e : Expression) : Prop := ∀ ⦃s t ns⦄, e.run Rule.run s = some (t, ns) → Smooth s t

theorem Flat.skips (he : Flat e) : Skips e := fun _ _ _ h => (he h).balanced.passes

theorem Flat.empty : Flat .empty := by
  intro s t ns h
  cases h
  exact .nil

theorem Flat.char {p : Char → Bool} (hp : ∀ c, p c = true → isInert c = true) : Flat (.char p) := by
  intro s t ns h
  obtain ⟨c, hc, rfl, -⟩ := run_char_eq_some.1 h
  exact .inert (hp c hc)

theorem Flat.seq (he : Flat e) (hf : Flat f) : Flat (.seq e f) := by
  intro s t ns h
  obtain ⟨u, ms, ks, hu, hv, -⟩ := run_seq_eq_some.1 h
  exact (he hu).trans (hf hv)

theorem Flat.choice (he : Flat e) (hf : Flat f) : Flat (.choice e f) := by
  intro s t ns h
  rcases run_choice_eq_some.1 h with h | ⟨-, h⟩
  · exact he h
  · exact hf h

theorem Flat.star (ht : e.takes = true) (he : Flat e) : Flat (.star e) := by
  intro s t ns h
  have hi := (run_star_eq_some Rule.lawful_run ht).1 h
  clear h
  induction hi with
  | stop => exact .nil
  | next hs _ ih => exact (he hs).trans ih

theorem Flat.absent : Flat (.absent e) := by
  intro s t ns h
  obtain ⟨-, rfl, -⟩ := run_absent_eq_some.1 h
  exact .nil

theorem Flat.maybe (he : Flat e) : Flat (maybe e) := Flat.choice he Flat.empty

theorem Flat.plus (ht : e.takes = true) (he : Flat e) :
    Flat (plus e) := Flat.seq he (Flat.star ht he)

theorem Flat.upTo (he : Flat e) (n : Nat) : Flat (upTo n e) := by
  induction n with
  | zero => exact Flat.empty
  | succ n ih => exact Flat.maybe (Flat.seq he ih)

theorem Flat.choices {es : List Expression} (h : ∀ e ∈ es, Flat e) : Flat (choices es) := by
  intro s t ns hr
  obtain ⟨e, he, hr⟩ := run_choices_some hr
  exact h e he hr

theorem Flat.seqs {es : List Expression} (h : ∀ e ∈ es, Flat e) : Flat (seqs es) := by
  induction es with
  | nil => exact Flat.empty
  | cons e es ih =>
      cases es with
      | nil => exact h e List.mem_cons_self
      | cons f es => exact Flat.seq (h e List.mem_cons_self) (ih fun g hg => h g (List.mem_cons_of_mem e hg))

theorem Flat.butNot (hp : ∀ c s, e.run Rule.run (c :: s) = none → isInert c = true) :
    Flat (butNot e) := by
  intro s t ns h
  obtain ⟨hn, ⟨c, rfl⟩, -⟩ := run_butNot_eq_some.1 h
  exact .inert (hp c t hn)

theorem Flat.exactly (hc : isInert c = true) : Flat (exactly c) :=
  Flat.char fun d hd => by rwa [of_decide_eq_true hd]

theorem Flat.literal {w : String} (hw : w.toList.all isInert = true) : Flat (literal w) := by
  refine Flat.seqs fun e he => ?_
  obtain ⟨c, hc, rfl⟩ := List.mem_map.1 he
  exact Flat.exactly (List.all_eq_true.1 hw c hc)

/-- The few characters that the walk looks at. -/
theorem special_of_not_inert (h : isInert c = false) :
    c ∈ ['"', '\'', '(', '[', ')', ']', '\\', '/'] := by
  by_cases hm : c ∈ ['"', '\'', '(', '[', ')', ']', '\\', '/']
  · exact hm
  · simp only [List.mem_cons, List.not_mem_nil, or_false, not_or] at hm
    obtain ⟨h1, h2, h3, h4, h5, h6, h7, h8⟩ := hm
    rw [isInert, openerOf?_eq_none h5 h6] at h
    simp [isQuote, isOpener, h1, h2, h3, h4, h7, h8] at h

/-- A class of characters is inert if it has none of the special ones. -/
theorem inert_of {p : Char → Bool}
    (hp : ['"', '\'', '(', '[', ')', ']', '\\', '/'].all (fun c => !p c) = true)
    {c : Char} (h : p c = true) : isInert c = true := by
  cases hc : isInert c with
  | true => rfl
  | false =>
      have hn := List.all_eq_true.1 hp c (special_of_not_inert hc)
      rw [h] at hn
      cases hn

theorem Flat.oneOf {cs : List Char} (hcs : cs.all isInert = true) : Flat (oneOf cs) :=
  Flat.char fun c hc => List.all_eq_true.1 hcs c (of_decide_eq_true hc)

theorem Flat.caseless {w : String} (hw : (w.toList.map Char.toLower).all isInert = true) :
    Flat (caseless w) := by
  refine Flat.seqs fun e he => ?_
  obtain ⟨c, hc, rfl⟩ := List.mem_map.1 he
  refine Flat.char fun d hd => ?_
  have hcd : c.toLower = d.toLower := of_decide_eq_true hd
  have hin : isInert d.toLower = true := hcd ▸ List.all_eq_true.1 hw _ (List.mem_map_of_mem hc)
  cases hd' : isInert d with
  | true => rfl
  | false =>
      have hm := special_of_not_inert hd'
      simp only [List.mem_cons, List.not_mem_nil, or_false] at hm
      rcases hm with rfl | rfl | rfl | rfl | rfl | rfl | rfl | rfl <;> cases hin

theorem flat_digit : Flat digit := Flat.char fun _ => inert_of (p := Char.isDigit) (by decide)

theorem flat_wsChar : Flat wsChar := Flat.char fun _ => inert_of (p := isWhitespace) (by decide)

theorem flat_ws : Flat ws := by
  refine Flat.plus rfl (Flat.choice flat_wsChar ?_)
  intro s t ns h
  rw [Blank.run_comment, Option.map_eq_some_iff] at h
  obtain ⟨u, hu, hx⟩ := h
  cases hx
  exact .comment hu

theorem flat_nthSpace : Flat nthSpace := Flat.plus rfl flat_wsChar

theorem flat_sign : Flat sign := Flat.oneOf (by decide)

theorem flat_nonAscii : Flat nonAscii := by
  refine Flat.butNot fun c s h => ?_
  have hc : isAscii c = false := run_char_eq_none.1 h c s rfl
  exact inert_of (p := fun c => !isAscii c) (by decide) (by simp [hc])

/-- Of an escape the walk only has to know the character behind the backslash: all that may follow
is digits and whitespace. -/
theorem flat_escape : Flat escape := by
  intro s t ns h
  obtain ⟨u, ms, ks, hu, hv, -⟩ := run_seq_eq_some.1 h
  obtain ⟨rfl, -⟩ := run_exactly_eq_some.1 hu
  rcases run_choice_eq_some.1 hv with hv | ⟨-, hv⟩
  · simp only [seqs_cons_cons, seqs_singleton] at hv
    obtain ⟨u', ms, ks, hc, hrest, -⟩ := run_seq_eq_some.1 hv
    obtain ⟨c, hx, rfl, -⟩ := run_char_eq_some.1 hc
    have hhex : Flat (.char isHexDigit) := Flat.char fun _ => inert_of (p := isHexDigit) (by decide)
    have hend : Flat (.maybe (.choice (.literal "\r\n") wsChar)) :=
      Flat.maybe (Flat.choice (Flat.literal (by decide)) flat_wsChar)
    have hpass := Flat.seq (hhex.upTo 5) hend hrest
    exact (Smooth.escape (Escape.isNewline_of_hex hx)).trans hpass
  · obtain ⟨hn, ⟨c, rfl⟩, -⟩ := run_butNot_eq_some.1 hv
    exact .escape (run_newline_eq_none.1 hn c t rfl)

theorem flat_nmstart : Flat nmstart := by
  refine Flat.choices fun e he => ?_
  simp only [List.mem_cons, List.not_mem_nil, or_false] at he
  rcases he with rfl | rfl | rfl | rfl
  · exact Flat.char fun _ => inert_of (p := Char.isAlpha) (by decide)
  · exact Flat.exactly (by decide)
  · exact flat_nonAscii
  · exact flat_escape

theorem flat_nmchar : Flat nmchar := by
  refine Flat.choices fun e he => ?_
  simp only [List.mem_cons, List.not_mem_nil, or_false] at he
  rcases he with rfl | rfl | rfl | rfl | rfl
  · exact Flat.char fun _ => inert_of (p := Char.isAlphanum) (by decide)
  · exact Flat.exactly (by decide)
  · exact Flat.exactly (by decide)
  · exact flat_nonAscii
  · exact flat_escape

end SelectorSyntax.Bracket
