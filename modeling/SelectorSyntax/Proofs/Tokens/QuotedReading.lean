import SelectorSyntax.Proofs.Tokens.Quoted

namespace SelectorSyntax.Text.Quoted

open Grammar CharClass

variable {q : Char} {s t v w : List Char} {ns : List Node}

/-- Between quotes, an escape of digits takes a newline behind it as what ends it. The string token
knows escapes only as a backslash and a character, and stops at that newline. -/
def NoNewlineAfterHex (w : List Char) : Prop :=
  ∀ h n, [h, n] <:+: w → isHexDigit h = true → isNewline n = false

theorem NoNewlineAfterHex.right {w' : List Char} (h : NoNewlineAfterHex (w ++ w')) :
    NoNewlineAfterHex w' :=
  fun x n hx => h x n (hx.trans (List.suffix_append w w').isInfix)

theorem NoNewlineAfterHex.left {w' : List Char} (h : NoNewlineAfterHex (w ++ w')) : NoNewlineAfterHex w :=
  fun x n hx => h x n (hx.trans (List.prefix_append w w').isInfix)

theorem NoNewlineAfterHex.cons {c : Char} (h : NoNewlineAfterHex w)
    (hc : ∀ n r, w = n :: r → isHexDigit c = true → isNewline n = false) : NoNewlineAfterHex (c :: w) := by
  intro x n hx hh
  rcases List.infix_cons_iff.1 hx with ⟨r, hr⟩ | hx
  · obtain ⟨rfl, rfl⟩ := List.cons.inj hr
    exact hc n r rfl hh
  · exact h x n hx hh

/-- A newline does not end the digits that are followed by `w`. -/
theorem NoNewlineAfterHex.head {c n : Char} {ds : List Char} (h : NoNewlineAfterHex (c :: ds ++ n :: w))
    (hc : isHexDigit c = true) (hds : ∀ x ∈ ds, isHexDigit x = true) : isNewline n = false := by
  obtain ⟨init, x, hx⟩ := List.eq_nil_or_concat (c :: ds) |>.resolve_left (List.cons_ne_nil c ds)
  refine h x n ⟨init, w, ?_⟩ ?_
  · rw [hx]
    simp
  · have hm : x ∈ c :: ds := by simp [hx]
    rcases List.mem_cons.1 hm with rfl | hm
    · exact hc
    · exact hds x hm

theorem continuation?_cases {s t : List Char} (h : continuation? s = some t) :
    s = '\r' :: '\n' :: t ∨ ∃ c, s = c :: t ∧ isNewline c = true ∧ ∀ r, ¬ (c = '\r' ∧ t = '\n' :: r) := by
  unfold continuation? at h
  split at h
  next r =>
    cases h
    exact Or.inl rfl
  next c r hcr =>
    split at h
    next hc =>
      cases h
      exact Or.inr ⟨c, rfl, hc, fun r ⟨hc', ht⟩ => hcr r hc' ht⟩
    next => cases h
  next => cases h

theorem continuation?_cons_eq_none {c : Char} : continuation? (c :: s) = none ↔ isNewline c = false := by
  unfold continuation?
  split
  next heq =>
    cases heq
    exact iff_of_false (Option.some_ne_none _) (by decide)
  next heq =>
    cases heq
    simp
  next heq => cases heq

/-- A backslash that starts an escape continues no line. -/
theorem continuation?_of_escape {d : Char} (he : Escape.read s = some (d, t)) : continuation? s = none := by
  cases s with
  | nil => cases he
  | cons c s => exact continuation?_cons_eq_none.2 (Escape.read_split he).1

theorem isNewline_quote (hq : isQuote q = true) : isNewline q = false := by
  rcases isQuote_cases hq with rfl | rfl <;> rfl

theorem plain_of_hex (hq : isQuote q = true) {c : Char} (hc : isHexDigit c = true) : Plain q c := by
  refine ⟨?_, ?_, Escape.isNewline_of_hex hc⟩
  · rintro rfl
    rcases isQuote_cases hq with rfl | rfl <;> cases hc
  · rintro rfl
    cases hc

theorem backslash_ne_quote (hq : isQuote q = true) : '\\' ≠ q := by
  rintro rfl
  cases hq

/-! One equation of the reader for each thing it can meet. -/

theorem readBody_close (q : Char) (s : List Char) : readBody q (q :: s) = some ([], s) := by
  rw [readBody, if_pos rfl]

theorem readBody_continue (hq : '\\' ≠ q) (h : continuation? s = some t) :
    readBody q ('\\' :: s) = readBody q t := by
  rw [readBody, if_neg hq, if_neg (by decide), if_pos rfl, h]

theorem readBody_escape (hq : '\\' ≠ q) {d : Char} (he : Escape.read s = some (d, t)) :
    readBody q ('\\' :: s) = (readBody q t).map fun (v, u) => (d :: v, u) := by
  rw [readBody, if_neg hq, if_neg (by decide), if_pos rfl, continuation?_of_escape he, he]

theorem readBody_plain {c : Char} (hc : Plain q c) :
    readBody q (c :: s) = (readBody q s).map fun (v, u) => (c :: v, u) := by
  rw [readBody, if_neg hc.1, if_neg (by simp [hc.2.2]), if_neg hc.2.1]

theorem eq_nil_of_no_escape (hc : continuation? s = none) (he : Escape.read s = none) : s = [] := by
  cases s with
  | nil => rfl
  | cons c s =>
      simp only [Escape.read, continuation?_cons_eq_none.1 hc, Bool.false_eq_true, if_false] at he
      split at he <;> cases he

/-- What ends the digits stands for itself between quotes, unless it starts with a newline. -/
theorem plain_of_terminator (hq : isQuote q = true) (hw : Escape.Terminator w)
    (hn : ∀ n r, w = n :: r → isNewline n = false) {c : Char} (hc : c ∈ w) : Plain q c := by
  cases hw with
  | nothing => exact absurd hc List.not_mem_nil
  | whitespace hx =>
      cases List.mem_singleton.1 hc
      refine ⟨?_, ?_, hn c [] rfl⟩
      · rintro rfl
        rcases isQuote_cases hq with rfl | rfl <;> cases hx
      · rintro rfl
        cases hx
  | newline => cases hn '\r' ['\n'] rfl

/-- The rounds of a quoted body never get past a newline where one of them starts. -/
theorem not_iterates_newline (hq : isQuote q = true) {c : Char} (hc : isNewline c = true) :
    ¬ Iterates ((quotedPiece q).run Rule.run) (c :: s) (q :: t) ns := by
  intro h
  have hb : c ≠ '\\' := by
    rintro rfl
    cases hc
  cases h with
  | stop =>
      rw [isNewline_quote hq] at hc
      cases hc
  | next hs =>
      rw [run_quotedPiece_eq_none hb (Or.inr hc)] at hs
      cases hs

theorem continuation_piece (h : continuation? s = some t) :
    (quotedPiece q).run Rule.run ('\\' :: s) = some (t, []) := by
  rw [run_quotedPiece_backslash]
  rcases continuation?_cases h with rfl | ⟨c, rfl, -, hcr⟩
  · rfl
  · split
    next hs => cases hs
    next r hs =>
      cases hs
      exact absurd ⟨rfl, rfl⟩ (hcr r)
    next hs =>
      cases hs
      rfl

theorem escape_piece {c : Char} (hc : isNewline c = false) :
    (quotedPiece q).run Rule.run ('\\' :: c :: s) = some (s, []) := by
  rw [run_quotedPiece_backslash]
  split
  next hs => cases hs
  next r hs =>
    cases hs
    cases hc
  next hs =>
    cases hs
    rfl

/-- What the reader takes as one escape, the rounds pass over as well, unless it ends with a newline. -/
theorem iterates_escape (hq : isQuote q = true) {d : Char} {u : List Char}
    (he : Escape.read s = some (d, u)) :
    Iterates ((quotedPiece q).run Rule.run) ('\\' :: s) (q :: t) ns →
      Iterates ((quotedPiece q).run Rule.run) u (q :: t) ns := by
  intro h
  cases s with
  | nil => cases he
  | cons c s =>
      obtain ⟨hn, ds, w, rfl, hds, hw, -⟩ := Escape.read_split he
      cases h with
      | stop => exact absurd rfl (backslash_ne_quote hq)
      | next hs h =>
          rw [escape_piece hn] at hs
          cases hs
          have h := (iterates_plain_append fun x hx => plain_of_hex hq (hds x hx)).1 h
          refine (iterates_plain_append fun x hx => plain_of_terminator hq hw ?_ hx).1 h
          rintro n r rfl
          cases hn' : isNewline n with
          | false => rfl
          | true => exact absurd h (not_iterates_newline hq hn')

theorem readBody_of_iterates (hq : isQuote q = true)
    (h : Iterates ((quotedPiece q).run Rule.run) s (q :: t) ns) :
    ∃ v, readBody q s = some (v, t) := by
  induction s using readBody.induct q generalizing ns with
  | case1 =>
      cases h with
      | next hs => cases hs
  | case2 r =>
      have hs : (quotedPiece q).run Rule.run (q :: r) = none :=
        run_quotedPiece_eq_none (backslash_ne_quote hq).symm (Or.inl rfl)
      cases h with
      | stop => exact ⟨[], readBody_close _ _⟩
      | next hs' => rw [hs] at hs'; cases hs'
  | case3 c r hc hn => exact absurd h (not_iterates_newline hq hn)
  | case4 r u hu hq' hn ih =>
      rw [readBody_continue hq' hu]
      cases h with
      | stop => exact absurd rfl hq'
      | next hs h =>
          rw [continuation_piece hu] at hs
          cases hs
          exact ih h
  | case5 r hc he hq' hn =>
      cases eq_nil_of_no_escape hc he
      cases h with
      | stop => exact absurd rfl hq'
      | next hs => rw [run_quotedPiece_backslash] at hs; cases hs
  | case6 r hc d u he hq' hn ih =>
      obtain ⟨v, hv⟩ := ih (iterates_escape hq he h)
      rw [readBody_escape hq' he, hv]
      exact ⟨d :: v, rfl⟩
  | case7 c r hq' hn hb ih =>
      have hp : Plain q c := ⟨hq', hb, by simpa using hn⟩
      rw [readBody_plain hp]
      cases h with
      | stop => exact absurd rfl hq'
      | next hs h =>
          rw [run_quotedPiece_plain hp] at hs
          cases hs
          obtain ⟨v, hv⟩ := ih h
          rw [hv]
          exact ⟨c :: v, rfl⟩

theorem continuation?_suffix (h : continuation? s = some t) : t <:+ s := by
  rcases continuation?_cases h with rfl | ⟨c, rfl, -⟩
  · exact (List.suffix_cons _ _).trans (List.suffix_cons _ _)
  · exact List.suffix_cons _ _

/-- What the reader does on the way to the closing quote: one case for each thing it can meet. -/
inductive Body (q : Char) : List Char → List Char → List Char → Prop
  | close {s : List Char} : Body q (q :: s) [] s
  | continued {s u v t : List Char} : '\\' ≠ q → continuation? s = some u → Body q u v t → Body q ('\\' :: s) v t
  | escape {d : Char} {s u v t : List Char} : '\\' ≠ q → Escape.read s = some (d, u) → Body q u v t →
      Body q ('\\' :: s) (d :: v) t
  | plain {c : Char} {s v t : List Char} : Plain q c → Body q s v t → Body q (c :: s) (c :: v) t

theorem readBody_eq_some : readBody q s = some (v, t) ↔ Body q s v t := by
  constructor
  · intro h
    induction s using readBody.induct q generalizing v with
    | case1 =>
        rw [readBody] at h
        cases h
    | case2 r =>
        rw [readBody_close] at h
        cases h
        exact .close
    | case3 c r hc hn =>
        rw [readBody, if_neg hc, if_pos hn] at h
        cases h
    | case4 r u hu hq hn ih =>
        rw [readBody_continue hq hu] at h
        exact .continued hq hu (ih h)
    | case5 r hc he hq hn =>
        rw [readBody, if_neg hq, if_neg hn, if_pos rfl, hc, he] at h
        cases h
    | case6 r hc d u he hq hn ih =>
        rw [readBody_escape hq he] at h
        obtain ⟨⟨x, y⟩, hx, hy⟩ := Option.map_eq_some_iff.1 h
        cases hy
        exact .escape hq he (ih hx)
    | case7 c r hq hn hb ih =>
        have hc : Plain q c := ⟨hq, hb, by simpa using hn⟩
        rw [readBody_plain hc] at h
        obtain ⟨⟨x, y⟩, hx, hy⟩ := Option.map_eq_some_iff.1 h
        cases hy
        exact .plain hc (ih hx)
  · intro h
    induction h with
    | close => exact readBody_close q _
    | continued hq hu _ ih => rw [readBody_continue hq hu, ih]
    | escape hq he _ ih => rw [readBody_escape hq he, ih]; rfl
    | plain hc _ ih => rw [readBody_plain hc, ih]; rfl

theorem Body.suffix (h : Body q s v t) : t <:+ s := by
  induction h with
  | close => exact List.suffix_cons _ _
  | continued _ hu _ ih => exact (ih.trans (continuation?_suffix hu)).trans (List.suffix_cons _ _)
  | escape _ he _ ih => exact (ih.trans (Escape.read_suffix he)).trans (List.suffix_cons _ _)
  | plain _ _ ih => exact ih.trans (List.suffix_cons _ _)

theorem readBody_suffix (h : readBody q s = some (v, t)) : t <:+ s := (readBody_eq_some.1 h).suffix

/-- Something is read of a body, if only the quote that closes it. -/
theorem Body.split (h : Body q s v t) : ∃ x, x ≠ [] ∧ s = x ++ t := by
  obtain ⟨x, rfl⟩ := h.suffix
  refine ⟨x, ?_, rfl⟩
  rintro rfl
  exact absurd (readBody_length (readBody_eq_some.2 h)) (Nat.lt_irrefl _)

theorem continuation?_append (h : continuation? (s ++ t) = some (u ++ t)) (hu : u ≠ [])
    (k : List Char) :
    continuation? (s ++ k) = some (u ++ k) := by
  obtain ⟨c, u, rfl⟩ := List.exists_cons_of_ne_nil hu
  rcases continuation?_cases h with hs | ⟨n, hs, hn, hcr⟩
  · obtain rfl : s = '\r' :: '\n' :: c :: u := (List.append_left_inj t).1 hs
    rfl
  · obtain rfl : s = n :: c :: u := (List.append_left_inj t).1 hs
    rw [List.cons_append, List.cons_append, continuation?]
    · rw [if_pos hn]
    · rintro v rfl hc
      obtain ⟨rfl, -⟩ := List.cons.inj hc
      exact hcr _ ⟨rfl, rfl⟩

/-- Quoted text is the same whatever follows it. -/
theorem Body.append (h : Body q (w ++ t) v t) (k : List Char) : Body q (w ++ k) v k := by
  generalize hs : w ++ t = s at h
  induction h generalizing w with
  | close =>
      obtain rfl : w = [q] := List.append_cancel_right hs
      exact .close
  | continued hq hu h ih =>
      obtain ⟨x, hx, rfl⟩ := h.split
      obtain ⟨y, rfl⟩ := continuation?_suffix hu
      obtain rfl : w = '\\' :: (y ++ x) := List.append_cancel_right (by simpa using hs)
      rw [← List.append_assoc] at hu
      exact .continued hq (continuation?_append hu hx k) (ih rfl)
  | escape hq he h ih =>
      obtain ⟨x, hx, rfl⟩ := h.split
      obtain ⟨y, rfl⟩ := Escape.read_suffix he
      obtain rfl : w = '\\' :: (y ++ x) := List.append_cancel_right (by simpa using hs)
      rw [← List.append_assoc] at he
      exact .escape hq (Escape.read_append (Or.inl hx) (Escape.read_cut he)) (ih rfl)
  | plain hc h ih =>
      obtain ⟨x, -, rfl⟩ := h.split
      obtain rfl : w = _ :: x := List.append_cancel_right (by simpa using hs)
      exact .plain hc (ih rfl)

theorem readBody_append (h : readBody q (w ++ t) = some (v, t)) (k : List Char) :
    readBody q (w ++ k) = some (v, k) := readBody_eq_some.2 ((readBody_eq_some.1 h).append k)

/-- The rounds pass over what the reader takes as one escape, if it does not end with a newline. -/
theorem iterates_of_escape (hq : isQuote q = true) {d : Char} {y u : List Char}
    (he : Escape.read (y ++ u) = some (d, u)) (hn : NoNewlineAfterHex y)
    (h : Iterates ((quotedPiece q).run Rule.run) u t ns) :
    Iterates ((quotedPiece q).run Rule.run) ('\\' :: (y ++ u)) t ns := by
  cases y with
  | nil => exact absurd (Escape.read_length he) (Nat.lt_irrefl _)
  | cons c y =>
      obtain ⟨hcn, ds, k, hy, hds, hk, hkc⟩ := Escape.read_split he
      obtain rfl : y = ds ++ k := List.append_cancel_right (hy.trans (List.append_assoc ds k u).symm)
      rw [List.cons_append, List.append_assoc]
      refine .next (escape_piece hcn) ((iterates_plain_append fun x hx => plain_of_hex hq (hds x hx)).2 ?_)
      refine (iterates_plain_append fun x hx => plain_of_terminator hq hk ?_ hx).2 h
      -- What ends the escape ends digits, so `c` is one, and no newline stands behind the last of them.
      rintro n m rfl
      have hc : isHexDigit c = true := by
        cases hc : isHexDigit c with
        | true => rfl
        | false => cases (hkc hc).2
      exact hn.head hc hds

/-- The rounds pass what the reader passes, unless an escape of digits ends with a newline. -/
theorem iterates_of_readBody (hq : isQuote q = true) (h : readBody q s = some (v, t)) (hw : s = w ++ t)
    (hn : NoNewlineAfterHex w) : Iterates ((quotedPiece q).run Rule.run) s (q :: t) [] := by
  replace h := readBody_eq_some.1 h
  induction h generalizing w with
  | close => exact .stop (run_quotedPiece_eq_none (backslash_ne_quote hq).symm (Or.inl rfl))
  | continued _ hu h ih =>
      obtain ⟨x, -, rfl⟩ := h.split
      obtain ⟨y, rfl⟩ := continuation?_suffix hu
      obtain rfl : w = ('\\' :: y) ++ x := List.append_cancel_right (by simpa using hw.symm)
      exact .next (continuation_piece hu) (ih rfl hn.right)
  | escape _ he h ih =>
      obtain ⟨x, -, rfl⟩ := h.split
      obtain ⟨y, rfl⟩ := Escape.read_suffix he
      obtain rfl : w = ['\\'] ++ (y ++ x) := List.append_cancel_right (by simpa using hw.symm)
      exact iterates_of_escape hq he hn.right.left (ih rfl hn.right.right)
  | plain hc h ih =>
      obtain ⟨x, -, rfl⟩ := h.split
      obtain rfl : w = [_] ++ x := List.append_cancel_right (by simpa using hw.symm)
      exact .next (run_quotedPiece_plain hc) (ih rfl hn.right)

/-- In a body that the rounds pass, newlines stand behind backslashes only. -/
theorem noNewlineAfterHex_of_iterates (hq : isQuote q = true) {u : List Char}
    (h : Iterates ((quotedPiece q).run Rule.run) s u ns) (hu : u = q :: t) (hw : s = w ++ t) :
    NoNewlineAfterHex w := by
  induction h generalizing w with
  | stop =>
      have hwq : w = [q] := List.append_cancel_right (hw.symm.trans hu)
      subst hwq
      intro x n hx
      exact absurd hx.length_le (by simp)
  | @next s t' u ns ms hs h ih =>
      subst hu
      have hhead (n : Char) (r w' : List Char) (ht : t' = w' ++ t) (hw' : w' = n :: r) : isNewline n = false := by
        cases hn : isNewline n with
        | false => rfl
        | true =>
            subst ht hw'
            exact absurd h (not_iterates_newline hq hn)
      obtain ⟨w', hw'⟩ : t <:+ t' :=
        (List.suffix_cons q t).trans (h.suffix ((quotedPiece q).run_suffix Rule.lawful_run))
      have hn := ih rfl hw'.symm
      rcases run_quotedPiece_cases hs with ⟨c, -, rfl⟩ | ⟨c, rfl⟩ | rfl
      · have hwc : w = c :: w' := List.append_cancel_right (by rw [← hw, List.cons_append, hw'])
        exact hwc ▸ hn.cons fun n r hr _ => hhead n r w' hw'.symm hr
      · have hwc : w = '\\' :: c :: w' :=
          List.append_cancel_right (by rw [← hw, List.cons_append, List.cons_append, hw'])
        exact hwc ▸ (hn.cons fun n r hr _ => hhead n r w' hw'.symm hr).cons fun _ _ _ hb => by cases hb
      · have hwc : w = '\\' :: '\r' :: '\n' :: w' :=
          List.append_cancel_right (by rw [← hw, List.cons_append, List.cons_append, List.cons_append, hw'])
        have hlf := (hn.cons (c := '\n') fun _ _ _ hh => by cases hh).cons (c := '\r') fun _ _ _ hh => by cases hh
        exact hwc ▸ hlf.cons fun _ _ _ hh => by cases hh

end SelectorSyntax.Text.Quoted
