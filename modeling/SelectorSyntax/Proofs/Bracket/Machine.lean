import SelectorSyntax.Proofs.Bracket.Exposed
import SelectorSyntax.Proofs.Diagnostic.Located

namespace SelectorSyntax.Bracket

open Text Place

/-- A closer that does not find an opener of its kind on top of the stack. -/
def isUnmatched (os : List Mark) (m : Mark) : Bool :=
  (openerOf? m.bracket).any fun o => os.head?.map Mark.bracket ≠ some o

/-- The stack of openers, the innermost on top, when one more bracket comes. It holds as many as come. -/
def turn (os : List Mark) (m : Mark) : List Mark :=
  if isOpener m.bracket then m :: os else if isUnmatched os m then os else os.tail

def stack (os ms : List Mark) : List Mark := ms.foldl turn os

def unmatched (os : List Mark) : List Mark → List Mark
  | [] => []
  | m :: ms => if isUnmatched os m then m :: unmatched (turn os m) ms else unmatched (turn os m) ms

/-- Words in which every opener has its closer. -/
inductive WellBracketed : List Char → Prop
  | nil : WellBracketed []
  | pair {o c u v} : isOpener o = true → openerOf? c = some o → WellBracketed u → WellBracketed v →
      WellBracketed (o :: (u ++ c :: v))

/-- Words that bring the closers for a row of openers, the innermost first. -/
inductive ClosesAll : List Char → List Char → Prop
  | nil {w} : WellBracketed w → ClosesAll [] w
  | cons {o c os u v} : WellBracketed u → openerOf? c = some o → ClosesAll os v → ClosesAll (o :: os) (u ++ c :: v)

variable {d d' : Nat} {o c : Char} {os ss ms before after : List Mark} {m : Mark} {u v w s p : List Char} {x : State}

@[simp] theorem stack_nil : stack os [] = os := rfl

@[simp] theorem stack_cons : stack os (m :: ms) = stack (turn os m) ms := rfl

theorem stack_append : stack os (before ++ after) = stack (stack os before) after := List.foldl_append

theorem turn_opener (h : isOpener m.bracket = true) : turn os m = m :: os := if_pos h

theorem isUnmatched_opener (h : isOpener m.bracket = true) : isUnmatched os m = false := by
  have hc : openerOf? m.bracket = none := by
    cases hc : openerOf? m.bracket with
    | none => rfl
    | some o =>
        rw [isOpener_of_closer hc] at h
        cases h
  rw [isUnmatched, hc]
  rfl

theorem turn_length_le (h : isOpener m.bracket = false) : (turn os m).length ≤ os.length := by
  rw [turn, if_neg (by simp [h])]
  split
  · exact Nat.le_refl _
  · exact List.length_tail ▸ Nat.sub_le _ _

/-- With room for it on the stack every bracket is taken, and the state is the stack and the unmatched closers. -/
theorem step?_eq (hm : isBracket m.bracket = true) : State.step? d ⟨os, ss⟩ m =
    if isOpener m.bracket = true ∧ d < (turn os m).length then none
    else some ⟨turn os m, if isUnmatched os m then m :: ss else ss⟩ := by
  by_cases ho : isOpener m.bracket = true
  · simp [State.step?, ho, turn_opener ho, isUnmatched_opener ho]
  · obtain ⟨o, hc⟩ : ∃ o, openerOf? m.bracket = some o :=
      Option.isSome_iff_exists.1 (by simpa [isBracket, ho] using hm)
    rw [State.step?, if_neg ho, if_neg (by simp [ho]), turn, if_neg ho, hc, isUnmatched, hc]
    cases os with
    | nil => simp [State.close]
    | cons top os => by_cases ht : top.bracket = o <;> simp [State.close, ht]

/-- The stack never holds more than `d` brackets. -/
def Fits (d : Nat) (os ms : List Mark) : Prop := ∀ before, before <+: ms → (stack os before).length ≤ d

theorem fits_nil : Fits d os [] ↔ os.length ≤ d := by simp [Fits]

theorem fits_cons : Fits d os (m :: ms) ↔ os.length ≤ d ∧ Fits d (turn os m) ms := by
  simp only [Fits, List.prefix_cons_iff]
  constructor
  · intro h
    exact ⟨h [] (Or.inl rfl), fun before hb => h (m :: before) (Or.inr ⟨before, rfl, hb⟩)⟩
  · rintro ⟨h, ht⟩ before (rfl | ⟨before, rfl, hb⟩)
    · exact h
    · exact ht before hb

/-- The bracket with which the stack first holds more than `d`. -/
def Overflows (d : Nat) (os ms : List Mark) (m : Mark) : Prop :=
  ∃ before after, ms = before ++ m :: after ∧ Fits d os before ∧ d < (stack os (before ++ [m])).length

theorem settle_eq_ok (hms : ∀ m ∈ ms, isBracket m.bracket = true) (h : Fits d os ms) :
    settle d ⟨os, ss⟩ ms = .ok ⟨stack os ms, (unmatched os ms).reverse ++ ss⟩ := by
  induction ms generalizing os ss with
  | nil => rfl
  | cons m ms ih =>
      obtain ⟨hm, hms⟩ := List.forall_mem_cons.1 hms
      obtain ⟨-, ht⟩ := fits_cons.1 h
      have hle : (turn os m).length ≤ d := ht [] List.nil_prefix
      rw [settle, step?_eq hm, if_neg (fun hd => Nat.not_lt.2 hle hd.2), unmatched]
      simp only
      rw [ih hms ht, stack_cons]
      split <;> simp

theorem settle_eq_error (hms : ∀ m ∈ ms, isBracket m.bracket = true) (h : Overflows d os ms m) (ss : List Mark) :
    isOpener m.bracket = true ∧ settle d ⟨os, ss⟩ ms = .error m.place := by
  obtain ⟨before, after, rfl, hf, hd⟩ := h
  induction before generalizing os ss with
  | nil =>
      have hm := hms m List.mem_cons_self
      rw [List.nil_append, stack_cons, stack_nil] at hd
      have ho : isOpener m.bracket = true := by
        cases ho : isOpener m.bracket with
        | true => rfl
        | false => exact absurd (Nat.lt_of_lt_of_le hd (turn_length_le ho)) (Nat.not_lt.2 (fits_nil.1 hf))
      exact ⟨ho, by rw [List.nil_append, settle, step?_eq hm, if_pos ⟨ho, hd⟩]⟩
  | cons b before ih =>
      rw [List.cons_append] at hms hd ⊢
      obtain ⟨hb, hms⟩ := List.forall_mem_cons.1 hms
      obtain ⟨-, ht⟩ := fits_cons.1 hf
      have hle : (turn os b).length ≤ d := ht [] List.nil_prefix
      rw [settle, step?_eq hb, if_neg (fun hd => Nat.not_lt.2 hle hd.2)]
      exact ih _ hms ht hd

theorem fits_or_overflows (ms : List Mark) (h : os.length ≤ d) : Fits d os ms ∨ ∃ m, Overflows d os ms m := by
  induction ms generalizing os with
  | nil => exact Or.inl (fits_nil.2 h)
  | cons m ms ih =>
      by_cases hd : (turn os m).length ≤ d
      · rcases ih hd with hf | ⟨n, before, after, rfl, hf, hn⟩
        · exact Or.inl (fits_cons.2 ⟨h, hf⟩)
        · exact Or.inr ⟨n, m :: before, after, rfl, fits_cons.2 ⟨h, hf⟩, hn⟩
      · exact Or.inr ⟨m, [], ms, rfl, fits_nil.2 h, Nat.lt_of_not_le hd⟩

/-! Words whose brackets are in pairs. -/

theorem WellBracketed.append (hu : WellBracketed u) (hv : WellBracketed v) : WellBracketed (u ++ v) := by
  induction hu with
  | nil => exact hv
  | @pair o c x y ho hc hx _ _ ihy =>
      rw [List.cons_append, List.append_assoc, List.cons_append]
      exact .pair ho hc hx ihy

theorem ClosesAll.prepend {os : List Char} (hu : WellBracketed u) (hv : ClosesAll os v) : ClosesAll os (u ++ v) := by
  cases hv with
  | nil hv => exact .nil (hu.append hv)
  | cons hx hc hv =>
      rw [← List.append_assoc]
      exact .cons (hu.append hx) hc hv

theorem turn_closer (hc : openerOf? m.bracket = some o) (hu : isUnmatched os m = false) :
    ∃ top rest, os = top :: rest ∧ top.bracket = o ∧ turn os m = rest := by
  rw [isUnmatched, hc] at hu
  cases os with
  | nil => cases hu
  | cons top rest =>
      refine ⟨top, rest, rfl, by simpa using hu, ?_⟩
      rw [turn, isOpener_of_closer hc, isUnmatched, hc, if_neg (by decide), Option.any_some, if_neg (by simpa using hu)]
      rfl

/-- Where the stack runs empty and every closer was matched, the closers are those of the stack. -/
theorem closesAll_of_stack (hms : ∀ m ∈ ms, isBracket m.bracket = true) (hs : stack os ms = [])
    (hu : unmatched os ms = []) : ClosesAll (os.map Mark.bracket) (ms.map Mark.bracket) := by
  induction ms generalizing os with
  | nil =>
      obtain rfl : os = [] := hs
      exact .nil .nil
  | cons m ms ih =>
      obtain ⟨hm, hms⟩ := List.forall_mem_cons.1 hms
      have hm' : isUnmatched os m = false := by
        cases hx : isUnmatched os m with
        | false => rfl
        | true =>
            rw [unmatched, if_pos hx] at hu
            cases hu
      rw [unmatched, if_neg (by simp [hm'])] at hu
      have hrest := ih hms hs hu
      rw [List.map_cons]
      cases ho : isOpener m.bracket with
      | true =>
          rw [turn_opener ho, List.map_cons] at hrest
          -- the closer of this opener ends the first of the words behind it
          generalize hw : ms.map Mark.bracket = w at hrest
          cases hrest with
          | @cons _ c _ u v hu hc hv => simpa using ClosesAll.prepend (.pair ho hc hu .nil) hv
      | false =>
          obtain ⟨o, hc⟩ : ∃ o, openerOf? m.bracket = some o :=
            Option.isSome_iff_exists.1 (by simpa [isBracket, ho] using hm)
          obtain ⟨top, rest, rfl, rfl, ht⟩ := turn_closer hc hm'
          rw [ht] at hrest
          exact .cons .nil hc hrest

theorem unmatched_append : unmatched os (before ++ after) = unmatched os before ++ unmatched (stack os before) after := by
  induction before generalizing os with
  | nil => rfl
  | cons m before ih =>
      rw [List.cons_append, unmatched, unmatched, ih, stack_cons]
      split <;> rfl

theorem turn_matched {m' : Mark} (hc : openerOf? m.bracket = some m'.bracket) : turn (m' :: os) m = os := by
  have hun : isUnmatched (m' :: os) m = false := by simp [isUnmatched, hc]
  rw [turn, isOpener_of_closer hc, hun]
  rfl

/-- A well-bracketed word leaves the stack as it was. -/
theorem WellBracketed.stack (hw : WellBracketed w) (hms : ms.map Mark.bracket = w) :
    Bracket.stack os ms = os ∧ unmatched os ms = [] := by
  induction hw generalizing os ms with
  | nil =>
      obtain rfl := List.map_eq_nil_iff.1 hms
      exact ⟨rfl, rfl⟩
  | @pair o c u v ho hc _ _ ihu ihv =>
      obtain ⟨m, rest, rfl, rfl, hrest⟩ := List.map_eq_cons_iff.1 hms
      obtain ⟨before, behind, rfl, hbefore, hbehind⟩ := List.map_eq_append_iff.1 hrest
      obtain ⟨m', after, rfl, rfl, hafter⟩ := List.map_eq_cons_iff.1 hbehind
      obtain ⟨hb, hub⟩ : Bracket.stack (m :: os) before = m :: os ∧ unmatched (m :: os) before = [] := ihu hbefore
      obtain ⟨ha, hua⟩ : Bracket.stack os after = os ∧ unmatched os after = [] := ihv hafter
      have hun : isUnmatched (m :: os) m' = false := by simp [isUnmatched, hc]
      have ht : turn (m :: os) m' = os := turn_matched hc
      have hun' : isUnmatched os m = false := isUnmatched_opener ho
      rw [stack_cons, turn_opener ho, stack_append, hb, stack_cons, ht, unmatched, hun', turn_opener ho, unmatched_append, hb,
        unmatched, hun, ht]
      simp [ha, hub, hua]

theorem wellBracketed_iff (hms : ∀ m ∈ ms, isBracket m.bracket = true) :
    stack [] ms = [] ∧ unmatched [] ms = [] ↔ WellBracketed (ms.map Mark.bracket) := by
  constructor
  · rintro ⟨hs, hu⟩
    have h := closesAll_of_stack hms hs hu
    generalize hw : ms.map Mark.bracket = w at h
    cases h with
    | nil h => exact h
  · exact fun h => h.stack rfl

/-! The scan runs the machine over the exposed brackets. -/

theorem scan_of_fits (h : Fits d [] (exposed s)) : scan s d = .ok ⟨(stack [] (exposed s)).reverse.map (Mark.locate s),
    (unmatched [] (exposed s)).map (Mark.locate s)⟩ := by
  rw [scan, walk_eq_settle, settle_eq_ok (fun m hm => (mem_exposed hm).1) h]
  simp [List.map_reverse]

theorem scan_of_overflows (h : Overflows d [] (exposed s) m) :
    isOpener m.bracket = true ∧ scan s d = .error (.nestingTooDeep (offsetOf s m.place) d) := by
  obtain ⟨ho, hw⟩ := settle_eq_error (fun m hm => (mem_exposed hm).1) h []
  exact ⟨ho, by rw [scan, walk_eq_settle, hw]⟩

theorem scan_cases (s : List Char) (d : Nat) : Fits d [] (exposed s) ∨ ∃ m, Overflows d [] (exposed s) m :=
  fits_or_overflows _ (Nat.zero_le d)

/-- With less room some bracket is one too many no later. -/
theorem Overflows.lower (h : Overflows d' os ms m) (hos : os.length ≤ d) (hd : d ≤ d') :
    ∃ n, Overflows d os ms n ∧ (n = m ∨ ∃ between after, ms = between ++ m :: after ∧ n ∈ between) := by
  obtain ⟨before, after, rfl, -, hm⟩ := h
  rcases fits_or_overflows (before ++ [m]) hos with hf | ⟨n, front, back, hn, hf, hlt⟩
  · exact absurd (hf _ List.prefix_rfl) (Nat.not_le.2 (Nat.lt_of_le_of_lt hd hm))
  · have hmem : n ∈ before ++ [m] := hn ▸ List.mem_append_right front List.mem_cons_self
    refine ⟨n, ⟨front, back ++ after, ?_, hf, hlt⟩, ?_⟩
    · rw [← List.singleton_append, ← List.append_assoc, hn, List.append_assoc, List.cons_append]
    · rcases List.mem_append.1 hmem with hb | hb
      · exact Or.inr ⟨before, after, rfl, hb⟩
      · exact Or.inl (List.mem_singleton.1 hb)

theorem byteSize_le_of_suffix (h : s <:+ w) : byteSize s ≤ byteSize w := by
  obtain ⟨x, rfl⟩ := h
  rw [byteSize_append]
  exact Nat.le_add_left _ _

/-- The place that overflows less room is no later in the text. -/
theorem Overflows.offset_le (h : Overflows d' [] (exposed s) m) (hd : d ≤ d') :
    ∃ n, Overflows d [] (exposed s) n ∧ offsetOf s n.place ≤ offsetOf s m.place := by
  obtain ⟨n, hn, rfl | ⟨front, back, hs, hmem⟩⟩ := h.lower (Nat.zero_le d) hd
  · exact ⟨n, hn, Nat.le_refl _⟩
  · have hord := exposed_ordered s
    rw [hs, List.pairwise_append] at hord
    exact ⟨n, hn, Nat.sub_le_sub_left (byteSize_le_of_suffix (hord.2.2 n hmem m List.mem_cons_self)) _⟩

/-! What the room for brackets does to a whole reading. -/

section

open Diagnostic

variable {input : String} {rule : StartRule} {e : SyntaxError} {report : Report} {place : List Char}

theorem parseWith_of_scan_error {x : LexicalError} (h : scan input.toList d = .error x) :
    parseWith input ⟨rule, d⟩ = .error (.tooDeep input.toList x.offset d) := by
  have hroot (r : Grammar.Rule) : matchRoot r input.toList d = .error (.tooDeep input.toList x.offset d) := by
    rw [matchRoot, h]
  cases rule with
  | selectors =>
      simp only [parseWith, parseSelectorList, hroot]
      rfl
  | text =>
      simp only [parseWith, parseTextFragment, hroot]
      rfl

theorem parseWith_congr (h : scan input.toList d = .ok report) (h' : scan input.toList d' = .ok report) :
    parseWith input ⟨rule, d⟩ = parseWith input ⟨rule, d'⟩ := by
  have hroot (r : Grammar.Rule) : matchRoot r input.toList d = matchRoot r input.toList d' := by
    rw [matchRoot, matchRoot, h, h']
  cases rule with
  | selectors => simp only [parseWith, parseSelectorList, hroot]
  | text => simp only [parseWith, parseTextFragment, hroot]

theorem classify_ne_tooDeep (rest : List Char) (offset : Nat) (rs : List Grammar.Rule) (report : Report) :
    SyntaxError.classify rest offset rs report ≠ .nestingTooDeep := by
  simp only [SyntaxError.classify]
  repeat' split
  all_goals decide

/-- Only the scan finds a text too deep. -/
theorem scan_error_of_tooDeep (h : parseWith input ⟨rule, d⟩ = .error e) (hk : e.kind = .nestingTooDeep) :
    ∃ x, scan input.toList d = .error x ∧ e = .tooDeep input.toList x.offset d := by
  cases failsWith_of_parseWith h with
  | tooDeep hx => exact ⟨_, hx, rfl⟩
  | unmatched => exact absurd hk (classify_ne_tooDeep _ _ _ _)
  | flawed _ _ _ ho =>
      cases ho with
      | afterElement => cases hk
      | outOfRange => cases hk
      | notNth => exact absurd hk (classify_ne_tooDeep _ _ _ _)

theorem start_tooDeep (h : place <:+ input.toList) :
    (SyntaxError.tooDeep input.toList (offsetOf input.toList place) d).location.start.offset =
      offsetOf input.toList place := by
  obtain ⟨before, hb⟩ := h
  rw [← hb, offsetOf_append]
  exact (Position.marks_ofOffset before place).offset

/-- The scan is a stack machine over the exposed brackets that holds `d` of them and no more. More room changes only
that less is too deep. -/
theorem scan_is_bounded_stack (text : List Char) (d : Nat) :
    (∀ x, scan text d = .error x ↔ ∃ m, Overflows d [] (exposed text) m ∧ isOpener m.bracket = true ∧
      x = .nestingTooDeep (offsetOf text m.place) d) ∧
    (∀ report, scan text d = .ok report ↔ Fits d [] (exposed text) ∧
      report.unclosed = (stack [] (exposed text)).reverse.map (Mark.locate text) ∧
      report.stray = (unmatched [] (exposed text)).map (Mark.locate text)) ∧
    (∀ report, scan text d = .ok report →
      (report.isBalanced = true ↔ WellBracketed ((exposed text).map Mark.bracket))) ∧
    ∀ (input : String) (rule : StartRule) (d' : Nat), d ≤ d' →
      (∀ result, parseWith input ⟨rule, d⟩ = result → (∀ e, result = .error e → e.kind ≠ .nestingTooDeep) →
        parseWith input ⟨rule, d'⟩ = result) ∧
      ∀ e', parseWith input ⟨rule, d'⟩ = .error e' → e'.kind = .nestingTooDeep →
        ∃ e, parseWith input ⟨rule, d⟩ = .error e ∧ e.kind = .nestingTooDeep ∧
          e.location.start.offset ≤ e'.location.start.offset := by
  refine ⟨fun x => ⟨fun h => ?_, ?_⟩, fun report => ⟨fun h => ?_, ?_⟩, fun report h => ?_, fun input rule d' hd => ⟨?_, ?_⟩⟩
  · rcases scan_cases text d with hf | ⟨m, hm⟩
    · rw [scan_of_fits hf] at h
      cases h
    · obtain ⟨ho, hs⟩ := scan_of_overflows hm
      rw [hs] at h
      cases h
      exact ⟨m, hm, ho, rfl⟩
  · rintro ⟨m, hm, -, rfl⟩
    exact (scan_of_overflows hm).2
  · rcases scan_cases text d with hf | ⟨m, hm⟩
    · rw [scan_of_fits hf] at h
      cases h
      exact ⟨hf, rfl, rfl⟩
    · rw [(scan_of_overflows hm).2] at h
      cases h
  · rintro ⟨hf, hu, hs⟩
    rw [scan_of_fits hf, ← hu, ← hs]
  · rcases scan_cases text d with hf | ⟨m, hm⟩
    · rw [scan_of_fits hf] at h
      cases h
      rw [← wellBracketed_iff fun m hm => (mem_exposed hm).1]
      simp [Report.isBalanced]
    · rw [(scan_of_overflows hm).2] at h
      cases h
  · rintro result rfl hne
    rcases scan_cases input.toList d with hf | ⟨m, hm⟩
    · have hf' : Fits d' [] (exposed input.toList) := fun before hb => (hf before hb).trans hd
      exact parseWith_congr (scan_of_fits hf') (scan_of_fits hf)
    · exact absurd rfl (hne _ (parseWith_of_scan_error (scan_of_overflows hm).2))
  · intro e' he' hk
    obtain ⟨x, hx, rfl⟩ := scan_error_of_tooDeep he' hk
    rcases scan_cases input.toList d' with hf | ⟨m, hm⟩
    · rw [scan_of_fits hf] at hx
      cases hx
    · obtain ⟨n, hn, hle⟩ := hm.offset_le hd
      rw [(scan_of_overflows hm).2] at hx
      cases hx
      have hplace {k : Mark} {l : Nat} (h : Overflows l [] (exposed input.toList) k) : k.place <:+ input.toList := by
        obtain ⟨before, after, hms, -⟩ := h
        exact (mem_exposed (hms ▸ List.mem_append_right before List.mem_cons_self)).2.2
      refine ⟨_, parseWith_of_scan_error (scan_of_overflows hn).2, rfl, ?_⟩
      simp only [LexicalError.offset]
      rw [start_tooDeep (hplace hn), start_tooDeep (hplace hm)]
      exact hle

/-- A bracket behind a backslash and one in a comment take no room. -/
theorem scan_is_bounded_stack_hidden :
    (scan "[\\(/*(*/]".toList 1 = .ok ⟨[], []⟩ ∧ WellBracketed ((exposed "[\\(/*(*/]".toList).map Mark.bracket)) ∧
    (∃ list, parseWith "[\\(/*(*/]" ⟨.selectors, 1⟩ = .ok list ∧ parseWith "[\\(/*(*/]" ⟨.selectors, 5⟩ = .ok list) ∧
    ∃ e' e, parseWith "[\\((*" ⟨.selectors, 1⟩ = .error e' ∧ e'.kind = .nestingTooDeep ∧
      parseWith "[\\((*" ⟨.selectors, 0⟩ = .error e ∧ e.kind = .nestingTooDeep ∧
      e.location.start.offset ≤ e'.location.start.offset := by
  have hscan : scan "[\\(/*(*/]".toList 1 = .ok ⟨[], []⟩ := by cbv
  have hok : parseWith "[\\(/*(*/]" ⟨.selectors, 1⟩ = .ok (.selectors
      [⟨⟨none, [.attribute ⟨"(", none⟩], []⟩, []⟩]) := by cbv
  have hdeep : scan "[\\((*".toList 1 = .error (.nestingTooDeep 3 1) := by cbv
  have herror : parseWith "[\\((*" ⟨.selectors, 1⟩ = _ := parseWith_of_scan_error hdeep
  refine ⟨⟨hscan, ((scan_is_bounded_stack _ 1).2.2.1 _ hscan).1 rfl⟩, ⟨_, hok, ?_⟩, ?_⟩
  · exact ((scan_is_bounded_stack [] 1).2.2.2 _ .selectors 5 (by decide)).1 _ hok (by simp)
  · obtain ⟨e, h⟩ := ((scan_is_bounded_stack [] 0).2.2.2 _ .selectors 1 (by decide)).2 _ herror rfl
    exact ⟨_, e, herror, rfl, h⟩

end

end SelectorSyntax.Bracket
