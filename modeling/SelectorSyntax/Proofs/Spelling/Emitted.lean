import SelectorSyntax.Proofs.Spelling.Leaves
import SelectorSyntax.Proofs.Spelling.OpenEnds

namespace SelectorSyntax.Selector.Spelling

open Grammar Expression Text CharClass

/-! A text and its leaves written one after another. -/

/-- What a token does not go on with: whitespace, the beginning of a comment, brackets and quotes. -/
def barriers : List Char := [' ', '\t', '\n', '\r', '\x0c', '/', '(', ')', '[', ']', '"', '\'']

/-- The rest of a text and the rest of its leaves, as far as tokens before them can tell: they go on alike, up to
an escape or to where both go on with nothing that a token takes. A comment that stays open in the text
does so in the leaves. -/
inductive Mirrors : List Char → List Char → Prop
  | barrier {t k} : (∀ c r, t = c :: r → c ∈ barriers) → (∀ c r, k = c :: r → c ∈ barriers) →
      (∀ r, k ≠ '/' :: r) → (∀ c r, k = c :: r → isWhitespace c = true → c = ' ') →
      (Blank.closeComment? t = none → Blank.closeComment? k = none) → Mirrors t k
  | escape {c t k} : isNewline c = false →
      (Blank.closeComment? ('\\' :: c :: t) = none → Blank.closeComment? ('\\' :: c :: k) = none) →
      Mirrors ('\\' :: c :: t) ('\\' :: c :: k)
  | same {c t k} : c ≠ '\\' → isWhitespace c = false → Mirrors t k → Mirrors (c :: t) (c :: k)

variable {r : Rule} {e f : Expression} {c d : Char} {k s t u v w x : List Char} {n : Node} {ns : List Node}

theorem closeComment?_cons : Blank.closeComment? (c :: s) = none ↔
    Blank.closeComment? s = none ∧ ∀ r, c = '*' → s ≠ '/' :: r := by
  by_cases h : ∃ r, c = '*' ∧ s = '/' :: r
  · obtain ⟨r, rfl, rfl⟩ := h
    simp [Blank.closeComment?]
  · rw [Blank.closeComment?]
    · exact ⟨fun hs => ⟨hs, fun r hc hr => h ⟨r, hc, hr⟩⟩, fun hs => hs.1⟩
    · exact fun r hc hr => h ⟨r, hc, hr⟩

theorem closeComment?_right (h : Blank.closeComment? (w ++ s) = none) : Blank.closeComment? s = none := by
  induction w with
  | nil => exact h
  | cons c w ih => exact ih (closeComment?_cons.1 h).1

/-- A character that a token may go on with is the same in the text. -/
theorem Mirrors.uncons (h : Mirrors t (c :: k)) (hb : c ≠ '\\') (hc : c ∉ barriers) :
    ∃ r, t = c :: r ∧ Mirrors r k := by
  cases h with
  | barrier _ hk => exact absurd (hk c k rfl) hc
  | escape => exact absurd rfl hb
  | same _ _ h => exact ⟨_, rfl, h⟩

theorem Mirrors.slash (h : Mirrors t ('/' :: k)) : ∃ r, t = '/' :: r := by
  cases h with
  | barrier _ _ hk => exact absurd rfl (hk k)
  | same => exact ⟨_, rfl⟩

/-- Behind the same characters a comment stays open in the leaves if it stays open in the text. -/
theorem Mirrors.closeComment?_append (h : Mirrors t k)
    (hk : Blank.closeComment? t = none → Blank.closeComment? k = none) (w : List Char) :
    Blank.closeComment? (w ++ t) = none → Blank.closeComment? (w ++ k) = none := by
  induction w with
  | nil => exact hk
  | cons c w ih =>
      rw [List.cons_append, List.cons_append, closeComment?_cons, closeComment?_cons]
      rintro ⟨hw, hstar⟩
      refine ⟨ih hw, fun r hc hr => ?_⟩
      cases w with
      | nil =>
          rw [List.nil_append] at hr
          obtain ⟨r, ht⟩ := Mirrors.slash (hr ▸ h)
          exact hstar r hc ht
      | cons d w =>
          obtain rfl : d = '/' := (List.cons.inj hr).1
          exact hstar _ hc rfl

theorem Mirrors.closeComment? (h : Mirrors t k) : Blank.closeComment? t = none → Blank.closeComment? k = none := by
  induction h with
  | barrier _ _ _ _ h => exact h
  | escape _ h => exact h
  | @same c t k _ _ h ih => exact h.closeComment?_append ih [c]

/-! Expressions that take the same of both. -/

/-- An expression takes the same characters of a text and of its leaves, or none of either. -/
def Alike (e : Expression) : Prop := ∀ ⦃s k⦄, Mirrors s k →
  (∀ ⦃t ns⦄, e.run Rule.run s = some (t, ns) → ∃ x l, s = x ++ t ∧ k = x ++ l ∧ '\\' ∉ x ∧ Mirrors t l ∧
    e.run Rule.run k = some (l, ns)) ∧ (e.run Rule.run s = none → e.run Rule.run k = none)

theorem alike_char {p : Char → Bool} (hp : barriers.all (fun c => !p c) = true) (hb : p '\\' = false) :
    Alike (char p) := by
  have hp (c : Char) (hc : c ∈ barriers) : p c = false := by simpa using List.all_eq_true.1 hp c hc
  intro s k h
  have hnone {s : List Char} (hs : ∀ c r, s = c :: r → c ∈ barriers) : (char p).run Rule.run s = none :=
    run_char_eq_none.2 fun c r hc => hp c (hs c r hc)
  cases h with
  | barrier hs hk =>
      rw [hnone hs, hnone hk]
      exact ⟨nofun, fun _ => rfl⟩
  | escape =>
      rw [run_char_cons, run_char_cons, hb]
      exact ⟨nofun, fun _ => rfl⟩
  | @same c s k hc _ h =>
      rw [run_char_cons, run_char_cons]
      split
      next =>
        refine ⟨fun t ns ht => ?_, nofun⟩
        cases ht
        exact ⟨[c], k, rfl, rfl, by simpa using Ne.symm hc, h, rfl⟩
      next => exact ⟨nofun, fun _ => rfl⟩

theorem Alike.empty : Alike .empty := by
  intro s k h
  refine ⟨fun t ns ht => ?_, nofun⟩
  cases ht
  exact ⟨[], k, rfl, rfl, List.not_mem_nil, h, rfl⟩

theorem Alike.seq (he : Alike e) (hf : Alike f) : Alike (seq e f) := by
  intro s k h
  refine ⟨fun t ns ht => ?_, fun hn => ?_⟩
  · obtain ⟨u, ms, ls, hu, hrest, rfl⟩ := run_seq_eq_some.1 ht
    obtain ⟨x, l, rfl, rfl, hxb, hl, hx⟩ := (he h).1 hu
    obtain ⟨y, m, rfl, rfl, hyb, hm, hy⟩ := (hf hl).1 hrest
    exact ⟨x ++ y, m, (List.append_assoc x y t).symm, (List.append_assoc x y m).symm, by simp [hxb, hyb], hm,
      run_seq_eq_some.2 ⟨_, ms, ls, hx, hy, rfl⟩⟩
  · rcases run_seq_eq_none.1 hn with hfirst | ⟨u, ms, hu, hrest⟩
    · exact run_seq_eq_none.2 (Or.inl ((he h).2 hfirst))
    · obtain ⟨x, l, rfl, rfl, hxb, hl, hx⟩ := (he h).1 hu
      exact run_seq_eq_none.2 (Or.inr ⟨_, ms, hx, (hf hl).2 hrest⟩)

theorem Alike.choice (he : Alike e) (hf : Alike f) : Alike (choice e f) := by
  intro s k h
  refine ⟨fun t ns ht => ?_, fun hn => ?_⟩
  · rcases run_choice_eq_some.1 ht with ht | ⟨hn, ht⟩
    · obtain ⟨x, l, hs, hk, hxb, hl, hx⟩ := (he h).1 ht
      exact ⟨x, l, hs, hk, hxb, hl, run_choice_eq_some.2 (Or.inl hx)⟩
    · obtain ⟨x, l, hs, hk, hxb, hl, hx⟩ := (hf h).1 ht
      exact ⟨x, l, hs, hk, hxb, hl, run_choice_eq_some.2 (Or.inr ⟨(he h).2 hn, hx⟩)⟩
  · obtain ⟨hne, hnf⟩ := run_choice_eq_none.1 hn
    exact run_choice_eq_none.2 ⟨(he h).2 hne, (hf h).2 hnf⟩

theorem Alike.maybe (he : Alike e) : Alike (maybe e) := he.choice .empty

theorem Alike.star (ht : e.takes = true) (he : Alike e) : Alike (star e) := by
  intro s k h
  refine ⟨fun t ns hs => ?_, fun hn => absurd hn run_star_ne_none⟩
  have hi := (run_star_eq_some Rule.lawful_run ht).1 hs
  clear hs
  simp only [run_star_eq_some Rule.lawful_run ht]
  induction hi generalizing k with
  | stop hn => exact ⟨[], k, rfl, rfl, List.not_mem_nil, h, .stop ((he h).2 hn)⟩
  | next hu _ ih =>
      obtain ⟨x, l, rfl, rfl, hxb, hl, hx⟩ := (he h).1 hu
      obtain ⟨y, m, rfl, rfl, hyb, hm, hy⟩ := ih hl
      exact ⟨x ++ y, m, (List.append_assoc _ _ _).symm, (List.append_assoc _ _ _).symm, by simp [hxb, hyb], hm, .next hx hy⟩

theorem Alike.plus (ht : e.takes = true) (he : Alike e) : Alike (plus e) := he.seq (he.star ht)

/-! Tokens. -/

theorem isIdentChar_of_hex (h : isHexDigit c = true) : isIdentChar c = true := by
  have hnum : c.isAlpha = true ∨ c.isDigit = true := by
    simp only [isHexDigit, hexValue?] at h
    simp only [Char.isAlpha, Char.isUpper, Char.isLower, Char.isDigit, Bool.or_eq_true, Bool.and_eq_true, decide_eq_true_eq]
    split at h
    next hd => exact Or.inr hd
    next =>
      split at h
      next hl => exact Or.inl (Or.inr ⟨hl.1, UInt32.le_trans hl.2 (by decide)⟩)
      next =>
        split at h
        next hu => exact Or.inl (Or.inl ⟨hu.1, UInt32.le_trans hu.2 (by decide)⟩)
        next => cases h
  rcases hnum with ha | hd
  · exact isIdentChar_of_isAlpha c ha
  · simp [isIdentChar, hd]

theorem isIdentChar_of_barrier (h : c ∈ barriers) : isIdentChar c = false ∧ c ≠ '\\' := by
  have hall : barriers.all (fun c => !isIdentChar c && c ≠ '\\') = true := by decide
  simpa using List.all_eq_true.1 hall c h

/-- Behind a name that ends in the text, what stands in the leaves does not go on with it either. -/
theorem Mirrors.behind (h : Mirrors t k) (hn : nmchar.run Rule.run t = none) (ho : (∃ r, k = ' ' :: r) → ¬ OpenEnd w) :
    Behind w k := by
  have hstops : Stops k := by
    intro c r hk
    subst hk
    cases h with
    | barrier _ hk => exact isIdentChar_of_barrier (hk c r rfl)
    | escape hc =>
        obtain ⟨d, u, hd⟩ := Escape.exists_read (s := _ :: _) (by simpa [Escape.isValid] using hc)
        rw [Identifier.run_nmchar_eq_some.2 ⟨Or.inl ⟨d, _, rfl, hd⟩, rfl⟩] at hn
        cases hn
    | same hb =>
        rw [Identifier.run_nmchar_cons, if_neg hb] at hn
        exact ⟨by simpa using hn, hb⟩
  refine ⟨hstops, ?_⟩
  by_cases hk : ∃ r, k = ' ' :: r
  · exact Or.inr ⟨hk, ho hk⟩
  · refine Or.inl fun c r hc => ⟨?_, ?_⟩
    · cases hx : isHexDigit c with
      | false => rfl
      | true => exact absurd (isIdentChar_of_hex hx) (by simp [(hstops c r hc).1])
    · subst hc
      cases h with
      | barrier _ _ _ hspace =>
          cases hw : isWhitespace c with
          | false => rfl
          | true => exact absurd ⟨r, by rw [hspace c r rfl hw]⟩ hk
      | escape => rfl
      | same _ hw => exact hw

/-- A text and its leaves go on alike behind the same characters, if no backslash is among them. -/
theorem Mirrors.chars (h : Mirrors t k) (hw : ∀ c ∈ w, c ≠ '\\' ∧ isWhitespace c = false) :
    Mirrors (w ++ t) (w ++ k) := by
  induction w with
  | nil => exact h
  | cons c w ih =>
      obtain ⟨⟨hb, hs⟩, hw⟩ := List.forall_mem_cons.1 hw
      exact .same hb hs (ih hw)

theorem isWhitespace_of_identChar (h : isIdentChar c = true) : isWhitespace c = false := by
  cases hw : isWhitespace c with
  | false => rfl
  | true =>
      have hmem : c ∈ barriers := by
        simp only [isWhitespace, isNewline, Bool.or_eq_true, decide_eq_true_eq] at hw
        rcases hw with (rfl | rfl) | (rfl | rfl) | rfl <;> decide
      rw [(isIdentChar_of_barrier hmem).1] at h
      cases h

theorem Mirrors.name {v : List Char} (h : Mirrors t k) (hw : Identifier.readTail w = .ok (v, [])) :
    Mirrors (w ++ t) (w ++ k) := by
  induction w generalizing v with
  | nil => exact h
  | cons c w ih =>
      rw [Identifier.readTail] at hw
      split at hw
      next hb =>
        subst hb
        cases w with
        | nil => cases hw
        | cons d w =>
            cases hn : isNewline d with
            | false => exact .escape hn (h.closeComment?_append h.closeComment? ('\\' :: d :: w))
            | true =>
                rw [Escape.read, if_pos hn] at hw
                cases hw
      next hb =>
        split at hw
        next hc =>
          obtain ⟨u, hu, -⟩ := Identifier.prepend_eq_ok.1 hw
          exact .same hb (isWhitespace_of_identChar hc) (ih hu)
        next => cases hw

theorem nmchars_of_ident (h : Rule.ident.run s = some (t, ns)) : Iterates (nmchar.run Rule.run) s t [] := by
  have hstart {s u : List Char} (h : nmstart.run Rule.run s = some (u, [])) : nmchar.run Rule.run s = some (u, []) := by
    refine Identifier.run_nmchar_eq_some.2 ⟨(Identifier.run_nmstart_eq_some.1 h).1.imp_right ?_, rfl⟩
    rintro ⟨c, hc, rfl⟩
    exact ⟨c, by rw [isIdentChar, hc]; rfl, rfl⟩
  have hdash (u : List Char) : nmchar.run Rule.run ('-' :: u) = some (u, []) :=
    Identifier.run_nmchar_eq_some.2 ⟨Or.inr ⟨'-', rfl, rfl⟩, rfl⟩
  obtain ⟨u, hh, hi, -⟩ := Identifier.run_ident_eq_some.1 h
  cases hh with
  | dashes => exact .next (hdash _) (.next (hdash _) hi)
  | start h => exact .next (hstart h) hi
  | dash h => exact .next (hdash _) (.next (hstart h) hi)

theorem Mirrors.ident (h : Mirrors t k) (hw : Rule.ident.run (w ++ t) = some (t, ns)) : Mirrors (w ++ t) (w ++ k) := by
  obtain ⟨v, hv, -⟩ := Identifier.exists_readTail (nmchars_of_ident hw) rfl
  exact h.name hv

theorem Mirrors.number (h : Mirrors t k) (hw : Rule.number.run (w ++ t) = some (t, ns)) : Mirrors (w ++ t) (w ++ k) := by
  have hdigits {ds : List Char} (hds : Digits ds) : ∀ c ∈ ds, c ≠ '\\' ∧ isWhitespace c = false := by
    intro c hc
    have hd := hds c hc
    have hchar : isIdentChar c = true := by simp [isIdentChar, hd]
    refine ⟨?_, isWhitespace_of_identChar hchar⟩
    rintro rfl
    cases hd
  have hsign {g : List Char} (hg : Sign g) : ∀ c ∈ g, c ≠ '\\' ∧ isWhitespace c = false := by
    cases hg with
    | none => exact fun c hc => absurd hc List.not_mem_nil
    | plus => exact List.forall_mem_singleton.2 (by decide)
    | minus => exact List.forall_mem_singleton.2 (by decide)
  cases number_of_run hw rfl with
  | integer hg hds _ hu =>
      simp only [List.append_assoc]
      exact ((h.name hu).chars (hdigits hds)).chars (hsign hg)
  | decimal hg hds hes _ hu =>
      simp only [List.append_assoc, List.cons_append]
      exact (((((h.name hu).chars (hdigits hes)).same (by decide) rfl).chars (hdigits hds))).chars (hsign hg)

theorem alike_magnitude : Alike (seq (maybe sign) magnitude) := by
  have hdigit : Alike digit := alike_char (by decide) rfl
  have hsign : Alike sign := alike_char (by decide) rfl
  refine hsign.maybe.seq (Alike.choice ?_ (hdigit.plus rfl))
  exact (hdigit.star rfl).seq ((alike_char (by decide) rfl).seq (hdigit.plus rfl))

theorem run_number_none : Rule.number.run s = none ↔ (seq (maybe sign) magnitude).run Rule.run s = none := by
  constructor
  · intro h
    cases hm : (seq (maybe sign) magnitude).run Rule.run s with
    | none => rfl
    | some x =>
        obtain ⟨u, ms⟩ := x
        obtain rfl : ms = [] := run_callFree rfl hm
        obtain ⟨t, hi⟩ := exists_iterates_nil (e := nmchar) Rule.lawful_run rfl rfl u
        rw [run_number_eq_some.2 ⟨u, hm, hi, rfl⟩] at h
        cases h
  · intro h
    cases hn : Rule.number.run s with
    | none => rfl
    | some x =>
        obtain ⟨u, hu, -⟩ := run_number_eq_some.1 hn
        rw [h] at hu
        cases hu

theorem ident_of_head (h : Identifier.Head s u) : Rule.ident.run s ≠ none := by
  obtain ⟨t, hi⟩ := exists_iterates_nil (e := nmchar) Rule.lawful_run rfl rfl u
  rw [Identifier.run_ident_eq_some.2 ⟨u, h, hi, rfl⟩]
  exact Option.some_ne_none _

/-- Where no name begins in the text, none begins in the leaves. -/
theorem Mirrors.ident_none (h : Mirrors t k) (hb : c ≠ '\\') (hn : Rule.ident.run (c :: t) = none) :
    Rule.ident.run (c :: k) = none := by
  have hstart {d : Char} {s : List Char} (hd : d ∉ barriers) (hdb : d ≠ '\\') (hk : k = d :: s) : ∃ r, t = d :: r := by
    obtain ⟨r, hr, -⟩ := Mirrors.uncons (hk ▸ h) hdb hd
    exact ⟨r, hr⟩
  cases hk : Rule.ident.run (c :: k) with
  | none => rfl
  | some x =>
  obtain ⟨u, hh, -⟩ := Identifier.run_ident_eq_some.1 hk
  refine absurd hn ?_
  generalize hs : c :: k = s at hh
  cases hh with
  | dashes =>
      obtain ⟨rfl, hdash⟩ := List.cons.inj hs
      obtain ⟨r, rfl⟩ := hstart (by decide) (by decide) hdash
      exact ident_of_head .dashes
  | start hnm =>
      subst hs
      rcases (Identifier.run_nmstart_eq_some.1 hnm).1 with ⟨d, r, hs, -⟩ | ⟨d, hd, hs⟩
      · exact absurd (List.cons.inj hs).1 hb
      · obtain ⟨rfl, -⟩ := List.cons.inj hs
        exact ident_of_head (.start (Identifier.run_nmstart_eq_some.2 ⟨Or.inr ⟨c, hd, rfl⟩, rfl⟩))
  | dash hnm =>
      obtain ⟨rfl, rfl⟩ := List.cons.inj hs
      rcases (Identifier.run_nmstart_eq_some.1 hnm).1 with ⟨d, r, rfl, -⟩ | ⟨d, hd, rfl⟩
      · cases h with
        | barrier _ hk => exact absurd (hk _ _ rfl) (by decide)
        | @escape c t k hc =>
            obtain ⟨e, v, hv⟩ := Escape.exists_read (s := c :: t) (by simpa [Escape.isValid] using hc)
            exact ident_of_head (.dash (Identifier.run_nmstart_eq_some.2 ⟨Or.inl ⟨e, _, rfl, hv⟩, rfl⟩))
        | same hb => exact absurd rfl hb
      · have hchar : isIdentChar d = true := by rw [isIdentChar, hd]; rfl
        have hbar : d ∉ barriers := fun hm => by
          rw [(isIdentChar_of_barrier hm).1] at hchar
          cases hchar
        have hdb : d ≠ '\\' := by
          rintro rfl
          cases hd
        obtain ⟨r, rfl⟩ := hstart hbar hdb rfl
        exact ident_of_head (.dash (Identifier.run_nmstart_eq_some.2 ⟨Or.inr ⟨d, hd, rfl⟩, rfl⟩))

/-- No comment is closed in the leaves where none is closed in the text. -/
theorem Mirrors.settled (h : Mirrors (c :: t) (c :: k)) (hs : Blank.Settled (c :: t)) : Blank.Settled (c :: k) := by
  refine ⟨?_, fun d r hd => (List.cons.inj hd).1 ▸ hs.whitespace c t rfl⟩
  unfold Blank.comment?
  split
  next k hk =>
    cases hk
    cases h with
    | barrier _ _ hslash => exact absurd rfl (hslash _)
    | same _ _ h =>
        obtain ⟨r, rfl, hr⟩ := h.uncons (by decide) (by decide)
        exact hr.closeComment? hs.comment
  next => rfl

theorem Mirrors.quoted (h : Mirrors t k) {q : Char} (hq : isQuote q = true) : Mirrors (q :: (w ++ t)) (q :: (w ++ k)) := by
  have hmem : q ∈ barriers ∧ q ≠ '/' ∧ isWhitespace q = false := by
    rcases isQuote_cases hq with rfl | rfl <;> decide
  obtain ⟨hbar, hslash, hspace⟩ := hmem
  have hhead {s : List Char} : ∀ c r, q :: s = c :: r → c ∈ barriers := fun c r hc => (List.cons.inj hc).1 ▸ hbar
  refine .barrier hhead hhead (fun r hr => hslash (List.cons.inj hr).1) ?_ (h.closeComment?_append h.closeComment? (q :: w))
  intro c r hc hw
  obtain ⟨rfl, -⟩ := List.cons.inj hc
  rw [hspace] at hw
  cases hw

theorem Mirrors.run_ident (h : Mirrors t k) (hw : Rule.ident.run (w ++ t) = some (t, ns))
    (ho : (∃ l, k = ' ' :: l) → ¬ OpenEnd w) : ∃ ms, Rule.ident.run (w ++ k) = some (k, ms) :=
  ⟨_, (h.behind (nmchars_of_ident hw).done ho).ident hw⟩

theorem Mirrors.run_number (h : Mirrors t k) (hw : Rule.number.run (w ++ t) = some (t, ns))
    (ho : (∃ l, k = ' ' :: l) → ¬ OpenEnd w) : ∃ ms, Rule.number.run (w ++ k) = some (k, ms) := by
  obtain ⟨u, hu, hi, -⟩ := run_number_eq_some.1 hw
  obtain ⟨v, rfl⟩ := hi.suffix fun h => run_suffix Rule.lawful_run nmchar h
  obtain ⟨x, l, hx, hxk, hxb, -, hl⟩ := (alike_magnitude (h.number hw)).1 hu
  obtain rfl : w = x ++ v := by
    rw [← List.append_assoc] at hx
    exact List.append_cancel_right hx
  rw [List.append_assoc] at hxk
  obtain rfl := List.append_cancel_left hxk
  have hv : Behind v k := h.behind hi.done fun hk hv => ho hk (.prepend hxb hv)
  exact ⟨_, run_number_eq_some.2 ⟨v ++ k, hl, hv.nmchars hi, rfl⟩⟩

theorem Mirrors.number_none (h : Mirrors s k) (hn : Rule.number.run s = none) : Rule.number.run k = none :=
  run_number_none.2 ((alike_magnitude h).2 (run_number_none.1 hn))

theorem string_none_of_run (hr : r ∈ [.number, .ident, .argDelim])
    (h : r.run (c :: s) = some (t, ns)) : Rule.string.run (c :: u) = none := by
  cases hc : isQuote c with
  | false => exact run_string_none hc u
  | true =>
      simp only [List.mem_cons, List.not_mem_nil, or_false] at hr
      have hnone : r.run (c :: s) = none := by
        rcases isQuote_cases hc with rfl | rfl <;> rcases hr with rfl | rfl | rfl <;> exact run_begins_none rfl rfl s
      rw [hnone] at h
      cases h

theorem Tokenizes.takes (h : Tokenizes r s t) : r.takes = true := by
  rcases h.cases with rfl | rfl | rfl | rfl <;> rfl

/-- A token of the text is one of the leaves, whatever blanks stood behind it, if no space behind it would end an escape. -/
theorem Mirrors.tokenizes (h : Mirrors t k) (hr : Tokenizes r (c :: w ++ t) t)
    (ho : (∃ l, k = ' ' :: l) → ¬ OpenEnd (c :: w)) :
    Mirrors (c :: w ++ t) (c :: w ++ k) ∧ Tokenizes r (c :: w ++ k) k := by
  have hrun := hr.run
  rcases (tokenizes_iff.1 hr).2 with rfl | ⟨-, rfl | ⟨hnumber, rfl | ⟨hident, rfl⟩⟩⟩
  · obtain ⟨q, u, hq, hu, -⟩ := run_string_eq_some.1 hrun
    obtain ⟨rfl, rfl⟩ := List.cons.inj hu
    obtain ⟨ms, hms⟩ := Bracket.run_string_replace (s := c :: w) (u := []) hrun k
    exact ⟨h.quoted hq, tokenizes_iff.2 ⟨⟨ms, hms⟩, Or.inl rfl⟩⟩
  · have hstring := string_none_of_run (u := w ++ k) (by simp) hrun
    exact ⟨h.number hrun, tokenizes_iff.2 ⟨h.run_number hrun ho, Or.inr ⟨hstring, Or.inl rfl⟩⟩⟩
  · have hstring := string_none_of_run (u := w ++ k) (by simp) hrun
    have hm := h.ident hrun
    have hnone := hm.number_none hnumber
    exact ⟨hm, tokenizes_iff.2 ⟨h.run_ident hrun ho, Or.inr ⟨hstring, Or.inr ⟨hnone, Or.inl rfl⟩⟩⟩⟩
  · have hstring := string_none_of_run (u := w ++ k) (by simp) hrun
    obtain ⟨d, hd, hs, -⟩ := run_argDelim_eq_some.1 hrun
    obtain ⟨rfl, hw⟩ := List.cons.inj hs
    obtain rfl : w = [] := List.append_left_eq_self.1 hw
    have hplain : c ≠ '\\' ∧ isWhitespace c = false := by
      rw [isDelimiter, Bool.not_eq_true', Bool.or_eq_false_iff] at hd
      exact ⟨fun hb => by simp [hb] at hd, hd.2⟩
    have hm := h.same hplain.1 hplain.2
    have hdelim : Rule.argDelim.run (c :: k) = some (k, [⟨.argDelim, c :: k, k, []⟩]) :=
      run_argDelim_eq_some.2 ⟨c, hd, rfl, rfl⟩
    exact ⟨hm, tokenizes_iff.2 ⟨⟨_, hdelim⟩, Or.inr ⟨hstring, Or.inr ⟨hm.number_none hnumber, Or.inr ⟨h.ident_none hplain.1 hident, rfl⟩⟩⟩⟩⟩

theorem Mirrors.token (h : Mirrors t k) (hr : Tokenizes r (w ++ t) t) (hs : Blank.Settled (w ++ t))
    (ho : (∃ l, k = ' ' :: l) → ¬ OpenEnd w) :
    ItemAt (.text (String.ofList w)) (w ++ k) k ∧ Mirrors (w ++ t) (w ++ k) := by
  have hne : w ≠ [] := by
    rintro rfl
    exact absurd (Rule.lawful_run.shorter hr.takes hr.run) (Nat.lt_irrefl _)
  obtain ⟨c, w, rfl⟩ := List.exists_cons_of_ne_nil hne
  obtain ⟨hm, htok⟩ := h.tokenizes hr ho
  exact ⟨.token htok (hm.settled hs), hm⟩

/-! Items. -/

/-- The texts one after another, with nothing between them. -/
def emitted (ls : List String) : List Char := ls.flatMap String.toList

/-- Behind no text that ends in an escape which a space would end there is a space. -/
def Parted (ls : List String) : Prop := ∀ w, OpenEnd w → ¬ [String.ofList w, " "] <:+: ls

variable {p : Parameter} {ps : List Parameter} {ls ks : List String}

theorem emitted_append : emitted (ls ++ ks) = emitted ls ++ emitted ks := List.flatMap_append

theorem Parted.of_infix (h : Parted ls) (hk : ks <:+: ls) : Parted ks := fun w hw hi => h w hw (hi.trans hk)

theorem mem_barriers_of_blanks {b : List Char} (hb : Blanks b) (hne : b ≠ []) : ∀ c r, b ++ s = c :: r → c ∈ barriers := by
  obtain ⟨d, b, rfl⟩ := List.exists_cons_of_ne_nil hne
  intro c r hc
  obtain rfl : d = c := (List.cons.inj hc).1
  rcases blanks_head hb with hw | rfl
  · simp only [isWhitespace, isNewline, Bool.or_eq_true, decide_eq_true_eq] at hw
    rcases hw with (rfl | rfl) | (rfl | rfl) | rfl <;> decide
  · decide

/-- A space may stand for blanks. -/
theorem Mirrors.space {b : List Char} (h : Mirrors t k) (hb : Blanks b) (hne : b ≠ []) : Mirrors (b ++ t) (' ' :: k) := by
  refine .barrier (mem_barriers_of_blanks hb hne) (fun c r hc => (List.cons.inj hc).1 ▸ by decide) (by simp) ?_ ?_
  · intro c r hc _
    exact (List.cons.inj hc).1.symm
  · intro ht
    exact closeComment?_cons.2 ⟨h.closeComment? (closeComment?_right ht), by simp⟩

/-- Before a closing bracket and behind an opening one nothing may stand for blanks. -/
theorem Mirrors.bracket {a b : List Char} (h : Mirrors t k) (hc : c ∈ ['(', ')', '[', ']']) (hb : Blanks b) :
    Mirrors (b ++ c :: (a ++ t)) (c :: k) := by
  have hbar : c ∈ barriers ∧ c ≠ '/' ∧ c ≠ '*' ∧ isWhitespace c = false := by
    simp only [List.mem_cons, List.not_mem_nil, or_false] at hc
    rcases hc with rfl | rfl | rfl | rfl <;> decide
  refine .barrier ?_ (fun d r hd => (List.cons.inj hd).1 ▸ hbar.1) (fun r hr => hbar.2.1 (List.cons.inj hr).1) ?_ ?_
  · by_cases hne : b = []
    · subst hne
      exact fun d r hd => (List.cons.inj hd).1 ▸ hbar.1
    · exact mem_barriers_of_blanks hb hne
  · intro d r hd hw
    obtain ⟨rfl, -⟩ := List.cons.inj hd
    rw [hbar.2.2.2] at hw
    cases hw
  · intro ht
    have hnone := closeComment?_right (closeComment?_cons.1 (closeComment?_right ht)).1
    exact closeComment?_cons.2 ⟨h.closeComment? hnone, fun r hstar => absurd hstar hbar.2.2.1⟩

theorem MoreAt.space {l : List Char} (h : MoreAt ps (' ' :: l) t) (ht : ∀ l, t ≠ ' ' :: l) : ∃ qs, ps = .text " " :: qs := by
  generalize hs : ' ' :: l = s at h
  cases h with
  | nil => exact absurd hs.symm (ht l)
  | adjacent hp =>
      subst hs
      cases hp.settled.whitespace ' ' l rfl
  | spaced => exact ⟨_, rfl⟩

/-- An item in front of others: no space behind it would end an escape. -/
theorem Parted.item (h : Parted (p.leaves ++ Parameter.leavesOfAll ps)) (hps : MoreAt ps s t) (ht : ∀ l, t ≠ ' ' :: l) :
    ∀ w, p = .text (String.ofList w) → (∃ l, s = ' ' :: l) → ¬ OpenEnd w := by
  rintro w rfl ⟨l, rfl⟩ hw
  obtain ⟨qs, rfl⟩ := hps.space ht
  exact h w hw ⟨[], Parameter.leavesOfAll qs, rfl⟩

mutual

theorem ItemAt.emit : ∀ {p s t k}, ItemAt p s t → Mirrors t k → Parted p.leaves →
    (∀ w, p = .text (String.ofList w) → (∃ l, k = ' ' :: l) → ¬ OpenEnd w) →
    ItemAt p (emitted p.leaves ++ k) k ∧ Mirrors s (emitted p.leaves ++ k)
  | _, _, _, k, @ItemAt.token r w t hr hs, h, _, ho => by
      have hw : emitted (Parameter.text (String.ofList w)).leaves = w := by simp [emitted, Parameter.leaves]
      rw [hw]
      exact h.token hr hs (ho w rfl)
  | _, _, _, k, @ItemAt.group o c ps b₁ s b₂ t hoc hb₁ hps hb₂, h, hparted, _ => by
      have hmem : o ∈ ['(', ')', '[', ']'] ∧ c ∈ ['(', ')', '[', ']'] ∧ c ≠ ' ' := by
        rcases pair_cases hoc with ⟨rfl, rfl⟩ | ⟨rfl, rfl⟩ <;> decide
      obtain ⟨ho, hc, hne⟩ := hmem
      have hleaves : (Parameter.list (.text (String.ofList [o]) :: (ps ++ [.text (String.ofList [c])]))).leaves =
          [String.ofList [o]] ++ Parameter.leavesOfAll ps ++ [String.ofList [c]] := by
        simp [Parameter.leaves, Parameter.leavesOfAll, Parameter.leavesOfAll_append]
      have hemitted : emitted ([String.ofList [o]] ++ Parameter.leavesOfAll ps ++ [String.ofList [c]]) ++ k =
          o :: ([] ++ (emitted (Parameter.leavesOfAll ps) ++ c :: k)) := by simp [emitted]
      rw [hleaves] at hparted ⊢
      obtain ⟨hitems, hm⟩ := hps.emit (h.bracket (a := []) hc hb₂) (fun l hl => hne (List.cons.inj hl).1)
        (hparted.of_infix ⟨_, _, rfl⟩)
      rw [hemitted]
      exact ⟨.group hoc .nil hitems .nil, hm.bracket ho .nil⟩

theorem ItemsAt.emit : ∀ {ps s t k}, ItemsAt ps s t → Mirrors t k → (∀ l, k ≠ ' ' :: l) → Parted (Parameter.leavesOfAll ps) →
    ItemsAt ps (emitted (Parameter.leavesOfAll ps) ++ k) k ∧ Mirrors s (emitted (Parameter.leavesOfAll ps) ++ k)
  | _, _, _, _, .nil, h, _, _ => ⟨.nil, h⟩
  | _, _, _, k, @ItemsAt.cons p ps s u t hp hps, h, hk, hparted => by
      obtain ⟨hmore, hm⟩ := hps.emit h hk (hparted.of_infix (List.suffix_append _ _).isInfix)
      obtain ⟨hitem, hm⟩ := hp.emit hm (hparted.of_infix (List.prefix_append _ _).isInfix) (hparted.item hmore hk)
      rw [Parameter.leavesOfAll, emitted_append, List.append_assoc]
      exact ⟨.cons hitem hmore, hm⟩

theorem MoreAt.emit : ∀ {ps s t k}, MoreAt ps s t → Mirrors t k → (∀ l, k ≠ ' ' :: l) → Parted (Parameter.leavesOfAll ps) →
    MoreAt ps (emitted (Parameter.leavesOfAll ps) ++ k) k ∧ Mirrors s (emitted (Parameter.leavesOfAll ps) ++ k)
  | _, _, _, _, .nil, h, _, _ => ⟨.nil, h⟩
  | _, _, _, k, @MoreAt.adjacent p ps s u t hp hps, h, hk, hparted => by
      obtain ⟨hmore, hm⟩ := hps.emit h hk (hparted.of_infix (List.suffix_append _ _).isInfix)
      obtain ⟨hitem, hm⟩ := hp.emit hm (hparted.of_infix (List.prefix_append _ _).isInfix) (hparted.item hmore hk)
      rw [Parameter.leavesOfAll, emitted_append, List.append_assoc]
      exact ⟨.adjacent hitem hmore, hm⟩
  | _, _, _, k, @MoreAt.spaced p ps b s u t hb hne hp hps, h, hk, hparted => by
      have hparted := hparted.of_infix (List.suffix_append [" "] _).isInfix
      obtain ⟨hmore, hm⟩ := hps.emit h hk (hparted.of_infix (List.suffix_append _ _).isInfix)
      obtain ⟨hitem, hm⟩ := hp.emit hm (hparted.of_infix (List.prefix_append _ _).isInfix) (hparted.item hmore hk)
      have hspace : emitted (Parameter.leavesOfAll (.text " " :: p :: ps)) ++ k =
          [' '] ++ (emitted p.leaves ++ (emitted (Parameter.leavesOfAll ps) ++ k)) := by
        simp [emitted, Parameter.leavesOfAll, Parameter.leaves]
      rw [hspace]
      exact ⟨.spaced (.whitespace rfl .nil) (by simp) hitem hmore, hm.space hb hne⟩

end

theorem emit_of_itemsAt {b : List Char} (hb : Blanks b) (h : ItemsAt ps s b) (hparted : Parted (Parameter.leavesOfAll ps)) :
    ItemsAt ps (emitted (Parameter.leavesOfAll ps)) [] := by
  have hend : Mirrors b [] := by
    refine .barrier (fun c r hc => ?_) nofun nofun nofun fun _ => rfl
    have hne : b ≠ [] := fun hb => by rw [hb] at hc; cases hc
    exact mem_barriers_of_blanks hb hne c r (by rw [hc, List.append_nil])
  have hitems := (h.emit hend nofun hparted).1
  rwa [List.append_nil] at hitems

end SelectorSyntax.Selector.Spelling

namespace SelectorSyntax

open Selector Selector.Spelling

theorem parse_emitted {t : List Char} {d : Nat} {v : Parameter} (h : parseTextFragment t d = .ok v)
    (hparted : Parted v.leaves) : parseTextFragment (emitted v.leaves) d = .ok v := by
  obtain ⟨ps, hps, rfl⟩ := itemsOf_parse h
  obtain ⟨b₁, s, b₂, -, hb₂, -, hitems⟩ := itemsAt_of_itemsOf hps
  exact parse_of_itemsAt .nil .nil (emit_of_itemsAt hb₂ hitems hparted) (depth_of_parse h)

end SelectorSyntax
