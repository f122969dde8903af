import SelectorSyntax.Proofs.Completion.Basic

namespace SelectorSyntax.Selector.Spelling

open Grammar Expression Text CharClass

variable {b ds es g k s t u v w : List Char} {c n : Char} {p : Char → Bool}

/-! What stands in front of a closing bracket. -/

/-- There is `c` behind the blanks. -/
def Before (c : Char) (k : List Char) : Prop := ∃ r, Blank.skip k = c :: r

/-- There is `c` or nothing behind the blanks. -/
def Ahead (c : Char) (k : List Char) : Prop := ∀ d r, Blank.skip k = d :: r → d = c

theorem Before.ahead (h : Before c k) : Ahead c k := by
  obtain ⟨r, hr⟩ := h
  intro d q hd
  cases hr.symm.trans hd
  rfl

theorem Ahead.head (h : Ahead c k) {d : Char} {r : List Char} (hk : k = d :: r) : d ∈ c :: '/' :: whitespace := by
  by_cases hw : d ∈ '/' :: whitespace
  · exact List.mem_cons_of_mem c hw
  · rw [List.mem_cons, not_or] at hw
    have hskip := (settled_of_head (isWhitespace_eq_false hw.2) hw.1 r).skip_eq
    rw [h d r (hk ▸ hskip)]
    exact List.mem_cons_self

theorem Ahead.run_none {e : Expression} (h : Ahead c k) (he : e.takes = true)
    (hb : (c :: '/' :: whitespace).all (fun d => !e.begins d (Rule.begins d)) = true) :
    e.run Rule.run k = none := by
  cases k with
  | nil => exact run_nil_eq_none he
  | cons d r => exact run_eq_none_of_begins r he (by simpa using List.all_eq_true.1 hb d (h.head rfl))

theorem Ahead.stops (h : Ahead c k) (hc : (isIdentChar c || c = '\\') = false) : Stops k := by
  refine stops_of_mem (c :: '/' :: whitespace) ?_ fun d r hd => h.head hd
  rw [Bool.or_eq_false_iff] at hc
  rw [List.all_cons, hc.1, show decide (c ≠ '\\') = true by simpa using hc.2]
  rfl

/-! Characters of one kind. -/

theorem rounds_char (hw : ∀ c ∈ w, p c = true) (k : List Char) :
    Relation.ReflTransGen (char p).Consumes (w ++ k) k := by
  induction w with
  | nil => exact .refl
  | cons c w ih =>
      refine .head (consumes_char.2 ⟨c, hw c List.mem_cons_self, rfl⟩) ?_
      exact ih fun d hd => hw d (List.mem_cons_of_mem c hd)

theorem consumes_star_char (hw : ∀ c ∈ w, p c = true) (hk : (char p).run Rule.run k = none) :
    (star (char p)).Consumes (w ++ k) k := (consumes_star rfl).2 ⟨rounds_char hw k, hk⟩

theorem consumes_plus_char (hw : ∀ c ∈ w, p c = true) (hne : w ≠ []) (hk : (char p).run Rule.run k = none) :
    (plus (char p)).Consumes (w ++ k) k := by
  obtain ⟨c, w, rfl⟩ := List.exists_cons_of_ne_nil hne
  refine (consumes_plus rfl).2 ⟨w ++ k, consumes_char.2 ⟨c, hw c List.mem_cons_self, rfl⟩, ?_, hk⟩
  exact rounds_char (fun d hd => hw d (List.mem_cons_of_mem c hd)) k

theorem consumes_maybe_nthSpace (hw : ∀ c ∈ w, isWhitespace c = true) (hk : wsChar.run Rule.run k = none) :
    (maybe nthSpace).Consumes (w ++ k) k := by
  by_cases hne : w = []
  · subst hne
    exact consumes_maybe.2 (Or.inr ⟨run_plus_eq_none.2 hk, rfl⟩)
  · exact consumes_maybe.2 (Or.inl (consumes_plus_char hw hne hk))

theorem consumes_sign (hg : Sign [c]) (k : List Char) : sign.Consumes (c :: k) k := by
  refine consumes_char.2 ⟨c, ?_, rfl⟩
  cases hg <;> rfl

theorem consumes_maybe_sign (hg : Sign g) (hk : sign.run Rule.run k = none) :
    (maybe sign).Consumes (g ++ k) k := by
  cases hg with
  | none => exact consumes_maybe.2 (Or.inr ⟨hk, rfl⟩)
  | plus => exact consumes_maybe.2 (Or.inl (consumes_sign .plus k))
  | minus => exact consumes_maybe.2 (Or.inl (consumes_sign .minus k))

/-! Numbers. -/

def keyword : Expression := seq (choice (caseless "odd") (caseless "even")) (absent nmchar)

def shift : Expression := seqs [maybe nthSpace, sign, maybe nthSpace, plus digit]

theorem run_keyword_none (hc : c.toLower ∉ ['o', 'e']) (s : List Char) : keyword.run Rule.run (c :: s) = none := by
  refine run_eq_none_of_begins s rfl ?_
  have hb : keyword.begins c (Rule.begins c) = (sameLetter 'o' c || false || (sameLetter 'e' c || false) || false) := rfl
  simp only [List.mem_cons, List.not_mem_nil, or_false, not_or] at hc
  simp only [hb, sameLetter, Bool.or_false, Bool.or_eq_false_iff, decide_eq_false_iff_not]
  exact ⟨fun h => hc.1 h.symm, fun h => hc.2 h.symm⟩

/-- Behind a sign, a number begins with a digit or with `n`. -/
inductive Unsigned : List Char → Prop
  | digit {c r} : c.isDigit = true → Unsigned (c :: r)
  | letter {n r} : n.toLower = 'n' → Unsigned (n :: r)

theorem Unsigned.of_digits (hds : Digits ds) (h : ds ≠ [] ∨ Unsigned k) : Unsigned (ds ++ k) := by
  cases ds with
  | nil => exact h.resolve_left fun h => h rfl
  | cons d ds => exact .digit (hds d List.mem_cons_self)

theorem Unsigned.run_sign (h : Unsigned k) : sign.run Rule.run k = none := by
  have hsign {p : Char → Bool} (hp : ['+', '-'].all (fun c => !p c) = true) {c : Char} (hc : p c = true)
      (r : List Char) : sign.run Rule.run (c :: r) = none := by
    refine run_char_eq_none.2 fun d q hd => ?_
    cases hd
    exact decide_eq_false (not_mem_of hp hc)
  cases h with
  | digit hc => exact hsign (p := Char.isDigit) rfl hc _
  | letter hn => exact hsign (p := fun c => c.toLower = 'n') rfl (decide_eq_true hn) _

theorem Unsigned.run_keyword (hg : Sign g) (h : Unsigned k) : keyword.run Rule.run (g ++ k) = none := by
  cases hg with
  | none =>
      cases h with
      | digit hc =>
          refine run_keyword_none ?_ _
          rw [toLower_of_isDigit hc]
          exact not_mem_of (p := Char.isDigit) rfl hc
      | letter hn =>
          refine run_keyword_none ?_ _
          rw [hn]
          decide
  | plus => exact run_keyword_none (by decide) _
  | minus => exact run_keyword_none (by decide) _

theorem Unsigned.run_space (h : Unsigned k) : wsChar.run Rule.run k = none := by
  refine run_char_eq_none.2 fun d q hd => ?_
  subst hd
  cases h with
  | digit hc => exact isWhitespace_eq_false (not_mem_of (p := Char.isDigit) rfl hc)
  | letter hn => exact isWhitespace_eq_false (not_mem_of (p := fun c => c.toLower = 'n') rfl (decide_eq_true hn))

theorem run_digit_letter (hn : n.toLower = 'n') (k : List Char) : digit.run Rule.run (n :: k) = none := by
  refine run_char_eq_none.2 fun d q hd => ?_
  cases hd
  refine Bool.eq_false_iff.2 fun h => ?_
  rw [toLower_of_isDigit h] at hn
  subst hn
  cases h

theorem blanks_of_whitespace (hw : ∀ c ∈ w, isWhitespace c = true) : Blanks w := by
  induction w with
  | nil => exact .nil
  | cons c w ih => exact .whitespace (hw c List.mem_cons_self) (ih fun d hd => hw d (List.mem_cons_of_mem c hd))

theorem Ahead.run_shift (hk : Ahead ')' k) : shift.run Rule.run k = none := by
  cases hrun : shift.run Rule.run k with
  | none => rfl
  | some x =>
      obtain ⟨t, ns⟩ := x
      obtain ⟨u, _, _, hu, hrun, -⟩ := run_seq_eq_some.1 hrun
      obtain ⟨v, _, _, hv, -, -⟩ := run_seq_eq_some.1 hrun
      obtain ⟨w, rfl, hw⟩ := maybe_nthSpace hu
      obtain ⟨c, hc, rfl⟩ := Spelling.run_sign hv
      -- A sign is no blank, so it would be what stands behind the blanks.
      have hsettled : Blank.Settled (c :: v) := by
        cases hc <;> exact settled_of_head rfl (by decide) v
      obtain rfl := hk c v (by rw [skip_blanks (blanks_of_whitespace hw), hsettled.skip_eq])
      cases hc

theorem consumes_shift {h : Char} (hw : ∀ c ∈ w, isWhitespace c = true) (hh : Sign [h])
    (hu : ∀ c ∈ u, isWhitespace c = true) (hes : Digits es) (hne : es ≠ []) (hk : digit.run Rule.run k = none) :
    shift.Consumes (w ++ h :: (u ++ (es ++ k))) k := by
  have hsign : wsChar.run Rule.run (h :: (u ++ (es ++ k))) = none := by
    cases hh <;> rfl
  refine consumes_seq.2 ⟨_, consumes_maybe_nthSpace hw hsign, consumes_seq.2 ⟨_, consumes_sign hh _, ?_⟩⟩
  have hdigits : Unsigned (es ++ k) := .of_digits hes (Or.inl hne)
  exact consumes_seq.2 ⟨_, consumes_maybe_nthSpace hu hdigits.run_space, consumes_plus_char hes hne hk⟩

theorem consumes_keyword (h : AnPlusB.foldCase w ∈ ["odd".toList, "even".toList])
    (hk : nmchar.run Rule.run k = none) : keyword.Consumes (w ++ k) k := by
  refine consumes_seq.2 ⟨k, ?_, consumes_absent.2 ⟨hk, rfl⟩⟩
  simp only [List.mem_cons, List.not_mem_nil, or_false] at h
  rcases h with h | h
  · exact consumes_choice.2 (Or.inl ⟨_, run_letters_of_foldCase h k⟩)
  · refine consumes_choice.2 (Or.inr ⟨?_, _, run_letters_of_foldCase h k⟩)
    obtain ⟨c, v, rfl, hc, -⟩ := List.map_eq_cons_iff.1 h
    exact run_seq_eq_none.2 (Or.inl (run_char_eq_none.2 fun d r hd => by
      cases hd
      rw [sameLetter, hc]
      rfl))

/-- A number in front of a closing parenthesis, or of nothing, is taken as a whole. -/
theorem consumes_nthValue (h : Nth w) (hk : Ahead ')' k) : (call .nthValue).Consumes (w ++ k) k := by
  have hletter : nmchar.run Rule.run k = none := (hk.stops rfl).run_nmchar
  have hdigit : digit.run Rule.run k = none := hk.run_none rfl rfl
  have habsent : (absent nmchar).Consumes k k := consumes_absent.2 ⟨hletter, rfl⟩
  have hstep {g ds : List Char} {n : Char} {s : List Char} (hg : Sign g) (hds : Digits ds) (hn : n.toLower = 'n')
      (hs : (maybe shift).Consumes s k) : (call .nthValue).Consumes (g ++ (ds ++ n :: s)) k := by
    have hunsigned : Unsigned (ds ++ n :: s) := .of_digits hds (Or.inr (.letter hn))
    refine consumes_call.2 (consumes_choice.2 (Or.inr ⟨hunsigned.run_keyword hg, ?_⟩))
    refine consumes_choice.2 (Or.inl (consumes_seq.2 ⟨_, consumes_maybe_sign hg hunsigned.run_sign, ?_⟩))
    refine consumes_seq.2 ⟨_, consumes_star_char hds (run_digit_letter hn s), ?_⟩
    refine consumes_seq.2 ⟨s, consumes_char.2 ⟨n, decide_eq_true hn.symm, rfl⟩, ?_⟩
    exact consumes_seq.2 ⟨k, hs, habsent⟩
  cases h with
  | keyword h => exact consumes_call.2 (consumes_choice.2 (Or.inl (consumes_keyword h hletter)))
  | @integer g ds hg hds hne =>
      have hunsigned : Unsigned (ds ++ k) := .of_digits hds (Or.inl hne)
      have hsign := consumes_maybe_sign hg hunsigned.run_sign
      have hnone : (seqs [maybe sign, star digit, caseless "n", maybe shift, absent nmchar]).run Rule.run
          (g ++ (ds ++ k)) = none := by
        obtain ⟨ms, hsign⟩ := hsign
        obtain ⟨ns, hdigits⟩ := consumes_star_char hds hdigit
        refine run_seq_eq_none.2 (Or.inr ⟨_, _, hsign, run_seq_eq_none.2 (Or.inr ⟨_, _, hdigits, ?_⟩)⟩)
        exact run_seq_eq_none.2 (Or.inl (hk.run_none rfl rfl))
      rw [List.append_assoc]
      refine consumes_call.2 (consumes_choice.2 (Or.inr ⟨hunsigned.run_keyword hg, ?_⟩))
      refine consumes_choice.2 (Or.inr ⟨hnone, consumes_seq.2 ⟨_, hsign, ?_⟩⟩)
      exact consumes_seq.2 ⟨k, consumes_plus_char hds hne hdigit, habsent⟩
  | step hg hds hn =>
      rw [List.append_assoc, List.append_assoc]
      exact hstep hg hds hn (consumes_maybe.2 (Or.inr ⟨hk.run_shift, rfl⟩))
  | shifted hg hds hn hw hh hu hes hne =>
      simp only [List.append_assoc, List.cons_append]
      exact hstep hg hds hn (consumes_maybe.2 (Or.inl (consumes_shift hw hh hu hes hne hdigit)))

/-! Numbers in parentheses. -/

theorem skip_before (hb : Blanks b) (hc : isWhitespace c = false) (hs : c ≠ '/') :
    Blank.skip (b ++ c :: k) = c :: k := by
  rw [skip_blanks hb, (settled_of_head hc hs k).skip_eq]

theorem consumes_closer {r : Rule} (hb : body r = .exactly c) :
    (seq (maybe ws) (call r)).Consumes k t ↔ Blank.skip k = c :: t := by
  simp only [consumes_seq, consumes_blanks, exists_eq_left, consumes_call, hb, consumes_exactly]

theorem consumes_nthArguments : (call .nthArguments).Consumes s t ↔
    ∃ b₁ x b₂, Blanks b₁ ∧ Nth x ∧ Blanks b₂ ∧ s = '(' :: (b₁ ++ (x ++ (b₂ ++ ')' :: t))) := by
  constructor
  · rintro ⟨ns, h⟩
    obtain ⟨b₁, x, b₂, _, _, hs, hb₁, hx, hb₂, -⟩ := run_nthArguments h
    exact ⟨b₁, x, b₂, hb₁, hx, hb₂, hs⟩
  · rintro ⟨b₁, x, b₂, hb₁, hx, hb₂, rfl⟩
    have hvalue := consumes_nthValue hx (Before.ahead ⟨t, skip_before hb₂ rfl (by decide)⟩)
    have hsettled : Blank.Settled (x ++ (b₂ ++ ')' :: t)) := settled_of_consumes rfl (by decide) hvalue
    refine consumes_call.2 (consumes_seq.2 ⟨_, consumes_exactly.2 rfl, ?_⟩)
    refine consumes_seq.2 ⟨_, ⟨_, maybe_ws_of_blanks hb₁ hsettled⟩, consumes_seq.2 ⟨_, hvalue, ?_⟩⟩
    exact (consumes_closer rfl).2 (skip_before hb₂ rfl (by decide))

theorem keeps_nthValue (hk : Ahead ')' (v ++ k)) : (call .nthValue).Keeps u k v := by
  refine keeps_token rfl fun s ⟨ns, h⟩ => ?_
  obtain ⟨w, hw⟩ := run_suffix Rule.lawful_run (call .nthValue) h
  have hx := nth_of_run h hw.symm
  rw [← List.append_assoc] at hw
  obtain rfl := eq_of_append_eq hw
  rw [List.append_assoc]
  exact consumes_nthValue hx hk

theorem keeps_nthArguments : (call .nthArguments).Keeps u k v := by
  have hclose : (seq (maybe ws) (call .parenClose)).Keeps u k v :=
    keeps_seq_blanks rfl (by decide) (keeps_call (keeps_char _))
  refine keeps_call (.seq (fun _ _ => keeps_char _) (keeps_seq_blanks rfl (by decide) (.seq (fun x hx => ?_) hclose)))
  exact keeps_nthValue (Before.ahead ⟨v ++ k, (consumes_closer rfl).1 hx⟩)

theorem completes_nthArguments (h : (call .nthArguments).Reaches (w ++ u) u) : (call .nthArguments).Completes w := by
  have hvalue : (call .nthValue).Completes [] := ⟨['n'], detached_of rfl, _, rfl⟩
  have hclose : (call .parenClose).Completes [] := ⟨[')'], detached_of rfl, consumes_call.2 (consumes_exactly.2 rfl)⟩
  have hend : Blank.skip [')'] = [')'] := (settled_of_head rfl (by decide) []).skip_eq
  refine completes_rule h ?_ fun h => ?_
  · have hn : Nth ['n'] := .step .none (fun d hd => absurd hd List.not_mem_nil) rfl
    exact ⟨['(', 'n', ')'], detached_of rfl, consumes_nthArguments.2 ⟨[], ['n'], [], .nil, hn, .nil, rfl⟩⟩
  refine completes_seq_callFree rfl h (fun x h => ?_) fun _ _ _ _ => keeps_char _
  refine completes_seq_blanks rfl (by decide) h fun y h => completes_seq h (fun h => ?_) (fun z h => ?_) ?_
  · exact (completes_leaf rfl hvalue h).seq (detached_of rfl) (keeps_nthValue (Before.ahead ⟨[], hend⟩)) ((consumes_closer rfl).2 hend)
  · exact completes_seq_blanks rfl (by decide) h fun _ h => completes_leaf rfl hclose h
  · exact fun _ _ _ hx => keeps_nthValue (Before.ahead ⟨[], (consumes_closer rfl).1 hx⟩)

end SelectorSyntax.Selector.Spelling
