import SelectorSyntax.Proofs.Spelling.Encoded
import SelectorSyntax.Proofs.Spelling.Items

namespace SelectorSyntax.Selector

open Grammar Expression Text OfNodes

namespace Spelling

variable {g ds es k s t u w : List Char} {x : Except AnPlusB.Fault AnPlusB} {ns : List Node}

/-! What selects siblings by number is read, unless a number is out of range. -/

theorem normalize_append (s t : List Char) :
    AnPlusB.normalize (s ++ t) = AnPlusB.normalize s ++ AnPlusB.normalize t := by
  simp [AnPlusB.normalize, AnPlusB.foldCase]

theorem normalize_whitespace (hw : ∀ c ∈ w, CharClass.isWhitespace c = true) :
    AnPlusB.normalize w = [] := by
  have hf : w.filter (fun c => !CharClass.isWhitespace c) = [] := by simpa using hw
  rw [AnPlusB.normalize, hf]
  rfl

theorem not_mem_of {p : Char → Bool} (hp : s.all (fun c => !p c) = true) {c : Char}
    (hc : p c = true) : c ∉ s := by
  intro hs
  have hn := List.all_eq_true.1 hp c hs
  rw [hc] at hn
  cases hn

def whitespace : List Char := [' ', '\t', '\n', '\r', '\x0c']

theorem isWhitespace_eq_false {c : Char} (hc : c ∉ whitespace) : CharClass.isWhitespace c = false := by
  simpa [whitespace, CharClass.isWhitespace, CharClass.isNewline, and_assoc] using hc

theorem toLower_of_isDigit {c : Char} (hc : c.isDigit = true) : c.toLower = c := by
  simp only [Char.isDigit, Bool.and_eq_true, decide_eq_true_eq] at hc
  rw [Char.toLower, dif_neg]
  rintro ⟨ha, -⟩
  have h : 'A'.val ≤ '9'.val := Nat.le_trans ha hc.2
  exact absurd h (by decide)

theorem normalize_of_dense (ht : ∀ c ∈ t, CharClass.isWhitespace c = false) :
    AnPlusB.normalize t = AnPlusB.foldCase t := by
  have hf : t.filter (fun c => !CharClass.isWhitespace c) = t := List.filter_eq_self.2 fun c hc => by simp [ht c hc]
  rw [AnPlusB.normalize, hf]

theorem normalize_digits (hds : Digits ds) : AnPlusB.normalize ds = ds := by
  rw [normalize_of_dense fun c hc => isWhitespace_eq_false (not_mem_of (p := Char.isDigit) rfl (hds c hc)),
    AnPlusB.foldCase]
  exact (List.map_congr_left fun c hc => toLower_of_isDigit (hds c hc)).trans (List.map_id ds)

theorem normalize_sign (hg : Sign g) : AnPlusB.normalize g = g := by
  cases hg <;> rfl

theorem normalize_letter {n : Char} (hn : n.toLower = 'n') (s : List Char) :
    AnPlusB.normalize (n :: s) = 'n' :: AnPlusB.normalize s := by
  have hw : CharClass.isWhitespace n = false :=
    isWhitespace_eq_false (not_mem_of (p := fun c => c.toLower = 'n') rfl (decide_eq_true hn))
  rw [AnPlusB.normalize, List.filter_cons_of_pos (by simp [hw]), AnPlusB.foldCase, List.map_cons, hn]
  rfl

/-- The integer that a sign and digits stand for. -/
def signed (g ds : List Char) : Int := if g = ['-'] then -(AnPlusB.natural ds : Int) else AnPlusB.natural ds

theorem readInteger_digits (hg : Sign g) (hds : Digits ds) (hne : ds ≠ []) :
    AnPlusB.readInteger (g ++ ds) =
      if AnPlusB.inRange (signed g ds) then .ok (signed g ds) else .error .outOfRange := by
  have hguard : (ds.isEmpty || !ds.all Char.isDigit) = false := by
    simp only [List.all_eq_true.2 hds, Bool.not_true, Bool.or_false, List.isEmpty_eq_false_iff, ne_eq, hne,
      not_false_eq_true]
  cases hg with
  | none =>
      rw [List.nil_append, AnPlusB.readInteger]
      · simp only [hguard, Bool.false_eq_true, if_false]
        rfl
      · rintro r rfl
        cases hds '+' List.mem_cons_self
      · rintro r rfl
        cases hds '-' List.mem_cons_self
  | plus =>
      rw [List.singleton_append, AnPlusB.readInteger]
      simp only [hguard, Bool.false_eq_true, if_false]
      rfl
  | minus =>
      rw [List.singleton_append, AnPlusB.readInteger]
      simp only [hguard, Bool.false_eq_true, if_false, if_true]
      rfl

theorem readInteger_ne_invalid (hg : Sign g) (hds : Digits ds) (hne : ds ≠ []) :
    AnPlusB.readInteger (g ++ ds) ≠ .error .invalid := by
  rw [readInteger_digits hg hds hne]
  split
  next => exact fun h => by cases h
  next => exact fun h => by cases h

theorem readStep_sign (hg : Sign g) : ∃ a, AnPlusB.readStep g = .ok a := by
  cases hg with
  | none => exact ⟨1, rfl⟩
  | plus => exact ⟨1, rfl⟩
  | minus => exact ⟨-1, rfl⟩

theorem readStep_digits (g : List Char) (hds : Digits ds) (hne : ds ≠ []) :
    AnPlusB.readStep (g ++ ds) = AnPlusB.readInteger (g ++ ds) := by
  obtain ⟨d, hd⟩ := List.exists_mem_of_ne_nil ds hne
  have hnot {c : Char} (hc : c.isDigit = false) : g ++ ds ≠ [c] := by
    intro heq
    have hdc : d = c := List.mem_singleton.1 (heq ▸ List.mem_append_right g hd)
    rw [← hdc, hds d hd] at hc
    cases hc
  unfold AnPlusB.readStep
  split
  next heq => exact absurd (List.append_eq_nil_iff.1 heq).2 hne
  next heq => exact absurd heq (hnot rfl)
  next heq => exact absurd heq (hnot rfl)
  next => rfl

theorem readStep_ne_invalid (hg : Sign g) (hds : Digits ds) :
    AnPlusB.readStep (g ++ ds) ≠ .error .invalid := by
  by_cases hne : ds = []
  · obtain ⟨a, ha⟩ := readStep_sign hg
    rw [hne, List.append_nil, ha]
    exact fun h => by cases h
  · rw [readStep_digits g hds hne]
    exact readInteger_ne_invalid hg hds hne

theorem readShift_digits {h : Char} (hh : Sign [h]) : AnPlusB.readShift (h :: ds) = AnPlusB.readInteger (h :: ds) := by
  have hsign : (decide (h = '+') || decide (h = '-')) = true := by
    cases hh <;> rfl
  rw [AnPlusB.readShift, if_pos hsign]

theorem readShift_ne_invalid {h : Char} (hh : Sign [h]) (hds : Digits ds) (hne : ds ≠ []) :
    AnPlusB.readShift (h :: ds) ≠ .error .invalid := by
  rw [readShift_digits hh]
  exact readInteger_ne_invalid hh hds hne

theorem not_isAlpha_of_isDigit {c : Char} (hc : c.isDigit = true) : c.isAlpha = false := by
  simp only [Char.isDigit, Bool.and_eq_true, decide_eq_true_eq, ge_iff_le, UInt32.le_iff_toNat_le] at hc
  simp only [Char.isAlpha, Char.isUpper, Char.isLower, ge_iff_le, UInt32.le_iff_toNat_le, Bool.or_eq_false_iff,
    Bool.and_eq_false_iff, decide_eq_false_iff_not]
  have h9 : '9'.val.toNat = 57 := rfl
  have hA : 'A'.val.toNat = 65 := rfl
  have ha : 'a'.val.toNat = 97 := rfl
  omega

theorem not_isAlpha (hg : Sign g) (hds : Digits ds) : ∀ c ∈ g ++ ds, c.isAlpha = false := by
  intro c hc
  rcases List.mem_append.1 hc with hc | hc
  · cases hg with
    | none => cases hc
    | plus | minus =>
        rw [List.mem_singleton.1 hc]
        rfl
  · exact not_isAlpha_of_isDigit (hds c hc)

/-- No sign and no digit is the letter that stands for all numbers. -/
theorem ne_n (hg : Sign g) (hds : Digits ds) : ∀ c ∈ g ++ ds, c ≠ 'n' := by
  rintro c hc rfl
  cases not_isAlpha hg hds 'n' hc

theorem bind_ne_error {ε α β : Type} {x : Except ε α} {f : α → Except ε β} {e : ε} (hx : x ≠ .error e)
    (hf : ∀ a, f a ≠ .error e) : (x >>= f) ≠ .error e := by
  cases x with
  | error d =>
      intro h
      cases h
      exact hx rfl
  | ok a => exact hf a

/-- What begins with neither keyword is a number with or without `n`. -/
theorem readNormal_numeric (hs : ∀ c ∈ s.takeWhile (· ≠ 'n'), c.isAlpha = false) :
    AnPlusB.readNormal s = match s.dropWhile (· ≠ 'n') with
      | [] => (AnPlusB.readInteger s).map (⟨0, ·⟩)
      | _ :: r =>
        AnPlusB.readStep (s.takeWhile (· ≠ 'n')) >>= fun a => AnPlusB.readShift r >>= fun b => .ok ⟨a, b⟩ := by
  rw [AnPlusB.readNormal, if_neg, if_neg]
  · rfl
  · rintro rfl
    cases hs 'e' (by decide)
  · rintro rfl
    cases hs 'o' (by decide)

theorem readNormal_integer (hg : Sign g) (hds : Digits ds) :
    AnPlusB.readNormal (g ++ ds) = (AnPlusB.readInteger (g ++ ds)).map (⟨0, ·⟩) := by
  have hp : ∀ c ∈ g ++ ds, decide (c ≠ 'n') = true := fun c hc => decide_eq_true (ne_n hg hds c hc)
  have hdrop : (g ++ ds ++ []).dropWhile (· ≠ 'n') = [] := List.dropWhile_append_of_pos hp
  have htake : (g ++ ds ++ []).takeWhile (· ≠ 'n') = g ++ ds ++ [] := List.takeWhile_append_of_pos hp
  rw [List.append_nil] at hdrop htake
  have hs : ∀ c ∈ (g ++ ds).takeWhile (· ≠ 'n'), c.isAlpha = false := by
    rw [htake]
    exact not_isAlpha hg hds
  rw [readNormal_numeric hs, hdrop]

theorem readNormal_step (hg : Sign g) (hds : Digits ds) (s : List Char) :
    AnPlusB.readNormal (g ++ (ds ++ 'n' :: s)) =
      AnPlusB.readStep (g ++ ds) >>= fun a => AnPlusB.readShift s >>= fun b => .ok ⟨a, b⟩ := by
  have hp : ∀ c ∈ g ++ ds, decide (c ≠ 'n') = true := fun c hc => decide_eq_true (ne_n hg hds c hc)
  have hdrop : (g ++ ds ++ 'n' :: s).dropWhile (· ≠ 'n') = 'n' :: s := by
    rw [List.dropWhile_append_of_pos hp]
    rfl
  have htake : (g ++ ds ++ 'n' :: s).takeWhile (· ≠ 'n') = g ++ ds := by
    rw [List.takeWhile_append_of_pos hp]
    exact List.append_nil _
  have hs : ∀ c ∈ (g ++ ds ++ 'n' :: s).takeWhile (· ≠ 'n'), c.isAlpha = false := by
    rw [htake]
    exact not_isAlpha hg hds
  rw [← List.append_assoc, readNormal_numeric hs, hdrop, htake]

/-! The three forms of an expression with numbers, read. -/

theorem read_integer (hg : Sign g) (hds : Digits ds) :
    AnPlusB.read (g ++ ds) = (AnPlusB.readInteger (g ++ ds)).map (⟨0, ·⟩) := by
  rw [AnPlusB.read, normalize_append, normalize_sign hg, normalize_digits hds, readNormal_integer hg hds]

theorem read_step {n : Char} (hg : Sign g) (hds : Digits ds) (hn : n.toLower = 'n') (s : List Char) :
    AnPlusB.read (g ++ (ds ++ n :: s)) =
      AnPlusB.readStep (g ++ ds) >>= fun a =>
        AnPlusB.readShift (AnPlusB.normalize s) >>= fun b => .ok ⟨a, b⟩ := by
  rw [AnPlusB.read, normalize_append, normalize_append, normalize_sign hg, normalize_digits hds,
    normalize_letter hn, readNormal_step hg hds]

theorem normalize_shift {h : Char} (hw : ∀ c ∈ w, CharClass.isWhitespace c = true) (hh : Sign [h])
    (hu : ∀ c ∈ u, CharClass.isWhitespace c = true) (hes : Digits es) :
    AnPlusB.normalize (w ++ h :: (u ++ es)) = h :: es := by
  rw [normalize_append, normalize_whitespace hw, List.nil_append, ← List.singleton_append, normalize_append,
    normalize_append, normalize_sign hh, normalize_whitespace hu, normalize_digits hes]
  rfl

theorem toLower_of_keyword (h : AnPlusB.foldCase t ∈ ["odd".toList, "even".toList]) {c : Char}
    (hc : c ∈ t) :
    c.toLower ∈ ['o', 'd', 'e', 'v', 'n'] := by
  have hmem : c.toLower ∈ AnPlusB.foldCase t := List.mem_map_of_mem hc
  simp only [List.mem_cons, List.not_mem_nil, or_false] at h
  rcases h with h | h
  · rw [h] at hmem
    exact (by decide : "odd".toList ⊆ ['o', 'd', 'e', 'v', 'n']) hmem
  · rw [h] at hmem
    exact (by decide : "even".toList ⊆ ['o', 'd', 'e', 'v', 'n']) hmem

theorem normalize_keyword (h : AnPlusB.foldCase t ∈ ["odd".toList, "even".toList]) :
    AnPlusB.normalize t = AnPlusB.foldCase t := by
  refine normalize_of_dense fun c hc => isWhitespace_eq_false ?_
  exact not_mem_of (p := fun c => c.toLower ∈ ['o', 'd', 'e', 'v', 'n']) rfl (decide_eq_true (toLower_of_keyword h hc))

theorem read_keyword (h : AnPlusB.foldCase t ∈ ["odd".toList, "even".toList]) : ∃ x, AnPlusB.read t = .ok x := by
  rw [AnPlusB.read, normalize_keyword h]
  simp only [List.mem_cons, List.not_mem_nil, or_false] at h
  rcases h with h | h
  · exact ⟨AnPlusB.odd, by rw [h]; rfl⟩
  · exact ⟨AnPlusB.even, by rw [h]; rfl⟩

theorem read_ne_invalid (h : Nth t) : AnPlusB.read t ≠ .error .invalid := by
  cases h with
  | keyword h =>
      obtain ⟨x, hx⟩ := read_keyword h
      rw [hx]
      exact fun h => by cases h
  | integer hg hds hne =>
      rw [read_integer hg hds]
      exact bind_ne_error (readInteger_ne_invalid hg hds hne) fun i h => by cases h
  | @step g ds n hg hds hn =>
      rw [read_step hg hds hn]
      exact bind_ne_error (readStep_ne_invalid hg hds) fun a =>
        bind_ne_error (fun h => by cases h) fun b h => by cases h
  | @shifted g ds n w h u es hg hds hn hw hh hu hes hne =>
      rw [read_step hg hds hn, normalize_shift hw hh hu hes]
      exact bind_ne_error (readStep_ne_invalid hg hds) fun a =>
        bind_ne_error (readShift_ne_invalid hh hes hne) fun b h => by cases h

/-! It consists of characters that are items of their own where nothing else is. -/

/-- The characters that can begin or end something other than a name or a number. -/
def special : List Char := ['(', ')', '[', ']', '"', '\'', '\\', '/'] ++ whitespace

/-- Texts of characters that are not special, or are whitespace. -/
def Simple (t : List Char) : Prop := ∀ c ∈ t, CharClass.isWhitespace c = true ∨ c ∉ special

theorem Simple.append (hs : Simple s) (ht : Simple t) : Simple (s ++ t) := by
  intro c hc
  rcases List.mem_append.1 hc with hc | hc
  · exact hs c hc
  · exact ht c hc

theorem Simple.of {p : Char → Bool} (hp : special.all (fun c => !p c) = true)
    (ht : ∀ c ∈ t, p c = true) : Simple t :=
  fun c hc => Or.inr (not_mem_of hp (ht c hc))

theorem simple_sign (hg : Sign g) : Simple g := by
  refine .of (p := fun c => c ∈ ['+', '-']) rfl fun c hc => ?_
  cases hg with
  | none => cases hc
  | plus =>
      rw [List.mem_singleton.1 hc]
      rfl
  | minus =>
      rw [List.mem_singleton.1 hc]
      rfl

theorem simple_digits (hds : Digits ds) : Simple ds := .of (p := Char.isDigit) rfl hds

theorem simple_whitespace (hw : ∀ c ∈ w, CharClass.isWhitespace c = true) :
    Simple w := fun c hc => Or.inl (hw c hc)

theorem simple_letter {n : Char} (hn : n.toLower = 'n') : Simple [n] := by
  refine .of (p := fun c => c.toLower = 'n') rfl fun c hc => ?_
  rw [List.mem_singleton.1 hc, hn]
  rfl

theorem Nth.simple (h : Nth t) : Simple t := by
  cases h with
  | keyword h =>
      refine .of (p := fun c => c.toLower ∈ ['o', 'd', 'e', 'v', 'n']) rfl fun c hc => ?_
      exact decide_eq_true (toLower_of_keyword h hc)
  | integer hg hds => exact (simple_sign hg).append (simple_digits hds)
  | step hg hds hn => exact (simple_sign hg).append ((simple_digits hds).append (simple_letter hn))
  | @shifted g ds n w h u es hg hds hn hw hh hu hes hne =>
      have hshift := (simple_sign hh).append ((simple_whitespace hu).append (simple_digits hes))
      have hstep := (simple_letter hn).append ((simple_whitespace hw).append hshift)
      exact (simple_sign hg).append ((simple_digits hds).append hstep)

/-! Without special characters a text is an argument without brackets. -/

theorem isDelimiter_of {c : Char} (hc : c ∉ special) : isDelimiter c = true := by
  simp only [special, List.mem_append, not_or] at hc
  have hmem : c ∉ ['(', ')', '[', ']', '"', '\'', '\\'] := fun h =>
    hc.1 ((by decide : ['(', ')', '[', ']', '"', '\'', '\\'] ⊆ ['(', ')', '[', ']', '"', '\'', '\\', '/']) h)
  rw [isDelimiter, isWhitespace_eq_false hc.2, decide_eq_false hmem]
  rfl

theorem settled_of_not_special (hs : ∀ c ∈ s, c ∉ special) : Blank.Settled s := by
  cases s with
  | nil => exact ⟨rfl, fun c r h => by cases h⟩
  | cons c s =>
      have hc := hs c List.mem_cons_self
      simp only [special, List.mem_append, not_or] at hc
      refine ⟨?_, fun d r h => ?_⟩
      · unfold Blank.comment?
        split
        next u heq =>
          cases heq
          exact absurd (by decide) hc.1
        next => rfl
      · cases h
        exact isWhitespace_eq_false hc.2

theorem uncommented_of_not_special (hs : ∀ c ∈ s, c ∉ special) : Uncommented s :=
  fun h => hs '/' (h.subset (by simp)) (by decide)

/-- An item that is one token. -/
theorem run_argItem_of_not_special {c : Char} (hc : c ∉ special) (s : List Char) :
    ∃ t n v, argItem.run Rule.run (c :: s) = some (t, [n]) ∧ item n = .ok (.text v) := by
  have hdelim : Rule.argDelim.run (c :: s) = some (s, [⟨.argDelim, c :: s, s, []⟩]) :=
    run_argDelim_eq_some.2 ⟨c, isDelimiter_of hc, rfl, rfl⟩
  have hne : argItem.run Rule.run (c :: s) ≠ none := by
    rw [Ne, argItem, run_choices_eq_none]
    intro h
    have hnone := h (call .argDelim) (by simp)
    rw [run_call, hdelim] at hnone
    cases hnone
  obtain ⟨⟨t, ns⟩, h⟩ := Option.ne_none_iff_exists'.1 hne
  have htoken {r : Rule} (hr : r ∈ [.string, .number, .ident, .argDelim]) (h : r.run (c :: s) = some (t, ns)) :
      ∃ n v, ns = [n] ∧ item n = .ok (.text v) := by
    have hrt : r.isToken = true := by
      simp only [List.mem_cons, List.not_mem_nil, or_false] at hr
      rcases hr with rfl | rfl | rfl | rfl <;> rfl
    obtain ⟨-, -, hns, -⟩ := run_token hrt h
    refine ⟨_, String.ofList (Place.between (c :: s) t), hns, ?_⟩
    simp only [List.mem_cons, List.not_mem_nil, or_false] at hr
    rcases hr with rfl | rfl | rfl | rfl <;> rw [item]
  have hitem : ∃ n v, ns = [n] ∧ item n = .ok (.text v) := by
    obtain ⟨e, he, hrun⟩ := run_choices_some h
    simp only [List.mem_cons, List.not_mem_nil, or_false] at he
    rcases he with rfl | rfl | rfl | rfl | rfl
    · exact htoken (by simp) hrun
    · exact htoken (by simp) hrun
    · exact htoken (by simp) hrun
    · have hgroup := run_argGroup_none (not_bracket (isDelimiter_of hc)) s
      rw [run_call, hgroup] at hrun
      cases hrun
    · exact htoken (by simp) hrun
  obtain ⟨n, v, rfl, hv⟩ := hitem
  exact ⟨t, n, v, h, hv⟩

theorem iterates_of_not_special (hs : ∀ c ∈ s, c ∉ special) :
    ∃ ns ps, Iterates (round.run Rule.run) s [] ns ∧ items ns = .ok ps ∧ Parameter.depthOfAll ps = 0 := by
  induction hn : s.length using Nat.strongRecOn generalizing s with
  | ind n ih =>
      cases s with
      | nil => exact ⟨[], [], .stop rfl, rfl, rfl⟩
      | cons c s =>
          obtain ⟨t, m, v, hrun, hv⟩ := run_argItem_of_not_special (hs c List.mem_cons_self) s
          have hlt := run_shorter Rule.lawful_run argItem rfl hrun
          have hsuffix := run_suffix Rule.lawful_run argItem hrun
          obtain ⟨ns, ps, hns, hps, hd⟩ := ih t.length (by omega) (fun d hd => hs d (hsuffix.mem hd)) rfl
          have hspace := run_argSpace_none.2 (settled_of_not_special hs)
          have hround : round.run Rule.run (c :: s) = some (t, [m]) :=
            run_seq_eq_some.2 ⟨c :: s, [], [m], run_maybe_eq_some.2 (Or.inr ⟨hspace, rfl, rfl⟩), hrun, rfl⟩
          refine ⟨m :: ns, .text v :: ps, .next hround hns, items_cons_of_ok hv hps, ?_⟩
          rw [Parameter.depthOfAll, Parameter.depth, hd]
          rfl

theorem run_argument_of_not_special (hs : ∀ c ∈ s, c ∉ special) (hne : s ≠ []) :
    ∃ ns ps, Rule.argument.run s = some ([], [⟨.argument, s, [], ns⟩]) ∧ items ns = .ok ps ∧
      Parameter.depthOfAll ps = 0 := by
  obtain ⟨c, s, rfl⟩ := List.exists_cons_of_ne_nil hne
  obtain ⟨t, m, v, hrun, hv⟩ := run_argItem_of_not_special (hs c List.mem_cons_self) s
  have hsuffix := run_suffix Rule.lawful_run argItem hrun
  obtain ⟨ns, ps, hns, hps, hd⟩ := iterates_of_not_special fun d hd => hs d (hsuffix.mem hd)
  have hstar := (run_star_eq_some Rule.lawful_run rfl).2 hns
  refine ⟨m :: ns, .text v :: ps, ?_, items_cons_of_ok hv hps, ?_⟩
  · exact (Rule.run_node rfl).2 ⟨m :: ns, run_seq_eq_some.2 ⟨t, [m], ns, hrun, hstar, rfl⟩, rfl⟩
  · rw [Parameter.depthOfAll, Parameter.depth, hd]
    rfl

theorem steady_nthValue (hk : Closing k) (hs : '\\' ∉ s) : Steady (body .nthValue) k s := by
  have hnmchar := (steady_nmchar hk hs).absent
  have hdigit : Steady digit k s := .char hk ⟨rfl, rfl⟩
  have hsign : Steady sign k s := .char hk ⟨rfl, rfl⟩
  have hspace : Steady nthSpace k s := (Steady.char hk ⟨rfl, rfl⟩).plus rfl
  refine Steady.choice ?_ (Steady.choice ?_ ?_)
  · exact ((Steady.caseless hk rfl).choice (Steady.caseless hk rfl)).seq hnmchar
  · refine hsign.maybe.seq ((hdigit.star rfl).seq ((Steady.caseless hk rfl).seq (Steady.seq ?_ hnmchar)))
    exact (hspace.maybe.seq (hsign.seq (hspace.maybe.seq (hdigit.plus rfl)))).maybe
  · exact hsign.maybe.seq ((hdigit.plus rfl).seq hnmchar)

end Spelling

namespace Nth

open Spelling

variable {t : List Char}

theorem spelled (h : Selector.Nth t) : Spelling.Nth t := by
  obtain ⟨ns, hns⟩ := h.matched
  exact nth_of_run hns (List.append_nil t).symm

theorem normalize_eq (h : Selector.Nth t) : AnPlusB.normalize t = t :=
  (normalize_of_dense h.dense).trans h.lower

theorem nthText_eq (h : Selector.Nth t) (place : List Char) :
    nthText place t = .ok (.text (String.ofList t)) := by
  rw [nthText, h.normalize_eq]
  cases hr : AnPlusB.read t with
  | ok x => rfl
  | error e =>
      cases e with
      | invalid => exact absurd hr (read_ne_invalid h.spelled)
      | outOfRange => exact absurd hr h.inRange

theorem not_special (h : Selector.Nth t) : ∀ c ∈ t, c ∉ special := by
  intro c hc
  rcases h.spelled.simple c hc with hw | hs
  · rw [h.dense c hc] at hw
    cases hw
  · exact hs

theorem ne_nil (h : Selector.Nth t) : t ≠ [] := by
  rintro rfl
  obtain ⟨ns, hns⟩ := h.matched
  exact absurd (Rule.lawful_run.shorter rfl hns) (Nat.not_lt_zero _)

/-- What an escaped name needs: the argument by itself is one that the plain names take. -/
theorem run_nthArguments (h : Selector.Nth t) :
    ∃ n v, Rule.nthArguments.run ('(' :: (t ++ [')'])) = some ([], [n]) ∧
    child? n .nthValue = some v ∧ v.text = t := by
  have hk : Closing [')'] := fun c r h => Or.inl (List.cons.inj h).1.symm
  have hs := h.not_special
  have hb : '\\' ∉ t := fun hb => hs _ hb (by decide)
  have hsettled := settled_closing hk (uncommented_of_not_special hs) (settled_of_not_special hs)
  have hvalue : Rule.nthValue.run (t ++ [')']) = some ([')'], [⟨.nthValue, t ++ [')'], [')'], []⟩]) := by
    obtain ⟨ns, hns⟩ := h.matched
    obtain ⟨ms, hms, -⟩ := (Rule.run_node rfl).1 hns
    refine (Rule.run_node rfl).2 ⟨ms, ?_, rfl⟩
    rw [steady_nthValue hk hb t List.suffix_rfl, hms]
    rfl
  have hclose : Rule.parenClose.run [')'] = some ([], [⟨.parenClose, [')'], [], []⟩]) :=
    (run_exactly_node rfl rfl).2 ⟨rfl, rfl⟩
  refine ⟨⟨.nthArguments, '(' :: (t ++ [')']), [],
      [⟨.nthValue, t ++ [')'], [')'], []⟩, ⟨.parenClose, [')'], [], []⟩]⟩, ⟨.nthValue, t ++ [')'], [')'], []⟩,
    (Rule.run_node rfl).2 ⟨_, ?_, rfl⟩, rfl, Place.between_append t [')']⟩
  refine run_seq_eq_some.2 ⟨t ++ [')'], [], _, run_exactly_cons _, ?_, rfl⟩
  refine run_seq_eq_some.2 ⟨t ++ [')'], [], _, ?_, ?_, rfl⟩
  · rw [Blank.run_maybe_ws, hsettled.skip_eq]
  refine run_seq_eq_some.2 ⟨[')'], _, _, hvalue, ?_, rfl⟩
  refine run_seq_eq_some.2 ⟨[')'], [], _, ?_, hclose, rfl⟩
  rw [Blank.run_maybe_ws, Blank.skip_other rfl rfl]

end Nth

end SelectorSyntax.Selector
