import SelectorSyntax.Proofs.Diagnostic.NthSpellings
import SelectorSyntax.Proofs.Spelling.Fragments
import SelectorSyntax.Proofs.Spelling.NthRefused

namespace SelectorSyntax.Selector.Spelling

open Grammar Expression Text CharClass OfNodes

variable {g t : List Char} {x : AnPlusB}

/-! Numbers in parentheses behind a name that takes one. -/

theorem run_nthArguments_whole (h : Nth t) : Rule.nthArguments.run ('(' :: (t ++ [')'])) =
    some ([], [⟨.nthArguments, '(' :: (t ++ [')']), [],
      [⟨.nthValue, t ++ [')'], [')'], []⟩, ⟨.parenClose, [')'], [], []⟩]⟩]) := by
  have hskip : Blank.skip [')'] = [')'] := Blank.skip_other rfl rfl
  have hvalue := consumes_nthValue h (Before.ahead ⟨[], hskip⟩)
  have hsettled : Blank.Settled (t ++ [')']) := settled_of_consumes rfl (by decide) hvalue
  obtain ⟨ns, hns⟩ := hvalue
  obtain ⟨ms, hms, rfl⟩ := (Rule.run_node rfl).1 hns
  have hclose : Rule.parenClose.run [')'] = some ([], [⟨.parenClose, [')'], [], []⟩]) :=
    (run_exactly_node rfl rfl).2 ⟨rfl, rfl⟩
  have hopen : (maybe ws).run Rule.run (t ++ [')']) = some (t ++ [')'], []) := by
    rw [Blank.run_maybe_ws, hsettled.skip_eq]
  have hend : (maybe ws).run Rule.run [')'] = some ([')'], []) := by
    rw [Blank.run_maybe_ws, hskip]
  refine (Rule.run_node rfl).2 ⟨_, run_seq_eq_some.2 ⟨_, [], _, run_exactly_cons '(', ?_, rfl⟩, rfl⟩
  refine run_seq_eq_some.2 ⟨_, [], _, hopen, run_seq_eq_some.2 ⟨_, _, _, hns, ?_, rfl⟩, rfl⟩
  exact run_seq_eq_some.2 ⟨_, [], _, hend, hclose, rfl⟩

theorem nthText_of_denotes (h : Denotes t x) (hx : Fits x) (place : List Char) :
    nthText place t = .ok (.text (String.ofList (AnPlusB.normalize t))) := by
  rw [nthText]
  simp only [read_normalize, h.read, if_pos hx]

/-- A number that fits, in any of its forms, is the parameter of a name that takes one. -/
theorem parse_nth {name : String} (hname : AnPlusB.isPseudoName name = true) (h : Denotes t x) (hx : Fits x) (d : Nat) :
    parseSelectorList (':' :: (name.toList ++ '(' :: (t ++ [')']))) (d + 1) =
      .ok (single name (.text (String.ofList (AnPlusB.normalize t)))) := by
  have hm := run_nthArguments_whole h.nth
  have hw : AnPlusB.isPseudoName (String.ofList name.toList) = true := by rwa [String.ofList_toList]
  have hrun := run_alone (run_simple_pseudoClass (ne_colon_of_ident (run_ident_of_isPseudoName hw _))
    (run_pseudoClass_plain hw hm))
  obtain ⟨report, hscan⟩ := scan_of_nesting (d := d + 1) hrun (by
    rw [nesting_alone]
    exact Nat.succ_le_succ (Nat.zero_le d))
  have hparameter : nthParameter ⟨.nthArguments, '(' :: (t ++ [')']), [],
      [⟨.nthValue, t ++ [')'], [')'], []⟩, ⟨.parenClose, [')'], [], []⟩]⟩ =
        .ok (.text (String.ofList (AnPlusB.normalize t))) := by
    change nthText (t ++ [')']) (Place.between (t ++ [')']) [')']) = _
    rw [Place.between_append, nthText_of_denotes h hx]
  rw [parse_plain hw hscan hm, hparameter, String.ofList_toList]
  rfl

theorem nth?_of_denotes {name : String} (hname : AnPlusB.isPseudoName name = true) (h : Denotes t x) (hx : Fits x) :
    Pseudo.nth? ⟨name, some (.text (String.ofList (AnPlusB.normalize t)))⟩ = some x := by
  have hread : AnPlusB.read (String.ofList (AnPlusB.normalize t)).toList = .ok x := by
    rw [String.toList_ofList, read_normalize, h.read, if_pos hx]
  rw [Pseudo.nth?, if_pos hname]
  change (AnPlusB.read (String.ofList (AnPlusB.normalize t)).toList).toOption = some x
  rw [hread]
  rfl

/-! Decimal numbers. -/

/-- Both integers in decimal, the one behind `n` with its sign. -/
def decimal (x : AnPlusB) : List Char :=
  (toString x.step).toList ++ 'n' :: ((if 0 ≤ x.shift then ['+'] else []) ++ (toString x.shift).toList)

theorem digits_toDigits (n : Nat) : Digits (Nat.toDigits 10 n) :=
  fun _ hc => Nat.isDigit_of_mem_toDigits (by decide) (by decide) hc

theorem toString_ofNat (n : Nat) : (toString (n : Int)).toList = Nat.toDigits 10 n := String.toList_ofList

theorem toString_negSucc (n : Nat) : (toString (Int.negSucc n)).toList = '-' :: Nat.toDigits 10 (n + 1) :=
  String.toList_append.trans (congrArg ('-' :: ·) String.toList_ofList)

theorem numeral_toDigits (n : Nat) :
    numeral g (Nat.toDigits 10 n) = if g = ['-'] then -(n : Int) else n := by
  rw [numeral, Nat.ofDigitChars_ten_toDigits]

theorem exists_numeral (i : Int) :
    ∃ g ds, Sign g ∧ Digits ds ∧ ds ≠ [] ∧ (toString i).toList = g ++ ds ∧ numeral g ds = i := by
  cases i with
  | ofNat n =>
      refine ⟨[], _, .none, digits_toDigits n, Nat.toDigits_ne_nil, toString_ofNat n, ?_⟩
      rw [numeral_toDigits, if_neg (by decide)]
      rfl
  | negSucc n =>
      refine ⟨['-'], _, .minus, digits_toDigits (n + 1), Nat.toDigits_ne_nil, toString_negSucc n, ?_⟩
      rw [numeral_toDigits, if_pos rfl]
      rfl

theorem exists_signed_numeral (i : Int) : ∃ h ds, Sign [h] ∧ Digits ds ∧ ds ≠ [] ∧
    (if 0 ≤ i then ['+'] else []) ++ (toString i).toList = h :: ds ∧ numeral [h] ds = i := by
  cases i with
  | ofNat n =>
      refine ⟨'+', _, .plus, digits_toDigits n, Nat.toDigits_ne_nil, ?_, ?_⟩
      · rw [if_pos (show 0 ≤ Int.ofNat n from Int.natCast_nonneg n)]
        exact congrArg ('+' :: ·) (toString_ofNat n)
      · rw [numeral_toDigits, if_neg (by decide)]
        rfl
  | negSucc n =>
      refine ⟨'-', _, .minus, digits_toDigits (n + 1), Nat.toDigits_ne_nil, ?_, ?_⟩
      · rw [if_neg (by simp), List.nil_append, toString_negSucc]
      · rw [numeral_toDigits, if_pos rfl]
        rfl

theorem denotes_decimal (x : AnPlusB) : Denotes (decimal x) x := by
  obtain ⟨g, ds, hg, hds, hne, hs, hstep⟩ := exists_numeral x.step
  obtain ⟨h, es, hh, hes, hne', hs', hshift⟩ := exists_signed_numeral x.shift
  have hcoefficient : coefficient g ds = x.step := by rw [coefficient, if_neg hne, hstep]
  have hd := Denotes.shifted (n := 'n') (w := []) (u := []) hg hds rfl (by simp) hh (by simp) hes hne'
  rw [hcoefficient, hshift] at hd
  rw [decimal, hs, hs', List.append_assoc]
  exact hd

end SelectorSyntax.Selector.Spelling

namespace SelectorSyntax

open Grammar Selector Text
open Selector.Spelling (Denotes Fits HugeStep decimal)

/-- What is taken for a number and what is read as one are the same without whitespace, except for a factor out of
bounds, behind which nothing is looked at. All that is taken is read as what it denotes, however it is spelled, if that
fits, and so the decimal form of what fits is read back from the argument of a pseudo-class. -/
theorem nth_agrees :
    (∀ t : List Char, (∀ c ∈ t, CharClass.isWhitespace c = false) →
      (AnPlusB.read t ≠ .error .invalid ↔ (∃ ns, Rule.nthValue.run t = some ([], ns)) ∨ HugeStep t)) ∧
    (∀ t, HugeStep t → AnPlusB.read t = .error .outOfRange) ∧
    (∀ t ns, Rule.nthValue.run t = some ([], ns) →
      AnPlusB.read (AnPlusB.normalize t) = AnPlusB.read t ∧ (∃ x, Denotes t x) ∧
        ∀ x, Denotes t x → AnPlusB.read t = if Fits x then .ok x else .error .outOfRange) ∧
    ∀ (name : String) (x : AnPlusB) (d : Nat), AnPlusB.isPseudoName name = true → Fits x →
      ∃ p : Pseudo, parseSelectorList (':' :: (name.toList ++ '(' :: (decimal x ++ [')']))) (d + 1) =
          .ok [⟨⟨none, [.pseudoClass p], []⟩, []⟩] ∧ p.name = name ∧ p.nth? = some x := by
  have hmatched {t : List Char} (h : Spelling.Nth t) : ∃ ns, Rule.nthValue.run t = some ([], ns) := by
    have hend : Spelling.Ahead ')' [] := fun c r h => by
      rw [Blank.skip_nil] at h
      cases h
    obtain ⟨ns, hns⟩ := Spelling.consumes_nthValue h hend
    rw [List.append_nil] at hns
    exact ⟨ns, hns⟩
  have hnth {t : List Char} {ns : List Node} (h : Rule.nthValue.run t = some ([], ns)) : Spelling.Nth t :=
    Spelling.nth_of_run h (List.append_nil t).symm
  refine ⟨fun t ht => ⟨fun h => (Spelling.nth_or_huge ht h).imp_left hmatched, ?_⟩, fun t => HugeStep.read,
    fun t ns h => ⟨Spelling.read_normalize t, (hnth h).denotes, fun x => Denotes.read⟩, fun name x d hname hx => ?_⟩
  · rintro (⟨ns, h⟩ | h)
    · exact Spelling.read_ne_invalid (hnth h)
    · rw [h.read]
      exact fun h => by cases h
  · exact ⟨_, Spelling.parse_nth hname (Spelling.denotes_decimal x) hx d, rfl,
      Spelling.nth?_of_denotes hname (Spelling.denotes_decimal x) hx⟩

/-- A huge factor hides what makes the rest no number. -/
theorem nth_differs_at_huge_factor :
    ¬ ∀ t : List Char, (∀ c ∈ t, CharClass.isWhitespace c = false) →
      ((∃ ns, Rule.nthValue.run t = some ([], ns)) ↔ AnPlusB.read t ≠ .error .invalid) := by
  intro h
  have hread : AnPlusB.read "99999999999n+x".toList = .error .outOfRange := by cbv
  have hrun : Rule.nthValue.run "99999999999n+x".toList =
      some (['+', 'x'], [⟨.nthValue, "99999999999n+x".toList, ['+', 'x'], []⟩]) := by cbv
  have hdense : "99999999999n+x".toList.all (fun c => !CharClass.isWhitespace c) = true := by rfl
  obtain ⟨ns, hns⟩ := (h "99999999999n+x".toList fun c hc => by simpa using List.all_eq_true.1 hdense c hc).2 (by
    rw [hread]
    decide)
  rw [hrun] at hns
  cases hns

/-- Both bounds at once, and a name in capitals. -/
theorem nth_agrees_bounds : Fits ⟨-2147483648, 2147483647⟩ ∧
    decimal ⟨-2147483648, 2147483647⟩ = "-2147483648n+2147483647".toList ∧
    ∃ p : Pseudo, parseSelectorList (':' :: ("NTH-Col".toList ++ '(' :: (decimal ⟨-2147483648, 2147483647⟩ ++ [')']))) 1 =
      .ok [⟨⟨none, [.pseudoClass p], []⟩, []⟩] ∧ p.name = "NTH-Col" ∧ p.nth? = some ⟨-2147483648, 2147483647⟩ :=
  ⟨by decide, by cbv, nth_agrees.2.2.2 "NTH-Col" ⟨-2147483648, 2147483647⟩ 0 (by decide) (by decide)⟩

end SelectorSyntax
