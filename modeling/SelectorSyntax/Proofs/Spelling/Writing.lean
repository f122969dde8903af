import SelectorSyntax.Proofs.Spelling.Encoded
import SelectorSyntax.Proofs.Spelling.Tokens
import SelectorSyntax.Proofs.Tokens.WrittenName
import SelectorSyntax.Proofs.Tokens.WrittenQuoted

namespace SelectorSyntax.Selector.Spelling

open Grammar Expression Text OfNodes CharClass

variable {c : Char} {k s t w : List Char} {v : String} {ns : List Node}

/-- Codes in full are one of the ways to write characters. -/
theorem written_escape {plain : Char → Prop} {ends : List (List Char)} (hc : c ≠ '\x00') (he : [' '] ∈ ends) :
    Escape.Written plain ends c (escape c) := .code (Escape.names_toDigits hc) he

/-! Names. -/

/-- A text that does not go on with a character of a name. -/
def Stops (k : List Char) : Prop := ∀ c r, k = c :: r → isIdentChar c = false ∧ c ≠ '\\'

theorem Stops.cons (hc : isIdentChar c = false) (hb : c ≠ '\\') : Stops (c :: s) := by
  rintro d r ⟨⟩
  exact ⟨hc, hb⟩

theorem Stops.run_nmchar (hk : Stops k) : nmchar.run Rule.run k = none := by
  cases k with
  | nil => exact Identifier.run_nmchar_nil
  | cons c r =>
      obtain ⟨hc, hb⟩ := hk c r rfl
      rw [Identifier.run_nmchar_cons, if_neg hb, if_neg (by simp [hc])]

theorem Stops.readTail (hk : Stops k) : Identifier.readTail k = .ok ([], k) := by
  cases k with
  | nil => exact Identifier.readTail_nil
  | cons c r =>
      obtain ⟨hc, hb⟩ := hk c r rfl
      rw [Identifier.readTail, if_neg hb, if_neg (by simp [hc])]

theorem writtenTail_escapes {cs : List Char} (hcs : '\x00' ∉ cs) :
    Identifier.WrittenTail [[' ']] cs (cs.flatMap escape) := by
  induction cs with
  | nil => exact .nil
  | cons c cs ih =>
      rw [List.mem_cons, not_or] at hcs
      exact .cons (written_escape (Ne.symm hcs.1) List.mem_cons_self) (ih hcs.2)

theorem name_cons (hv : WritableName v) :
    ∃ c cs, v.toList = c :: cs ∧ c ≠ '\x00' ∧ '\x00' ∉ cs := by
  obtain ⟨hne, hz⟩ := hv
  cases hl : v.toList with
  | nil => exact absurd (String.toList_eq_nil_iff.1 hl) hne
  | cons c cs =>
      rw [Writable, hl] at hz
      exact ⟨c, cs, rfl, fun h => hz (h ▸ List.mem_cons_self), fun h => hz (List.mem_cons_of_mem c h)⟩

/-- A written name begins with a backslash. -/
theorem escaped_eq (hv : WritableName v) : ∃ r, escaped v = '\\' :: r := by
  obtain ⟨c, cs, hl, -, -⟩ := name_cons hv
  rw [escaped, hl, List.flatMap_cons, escape, List.cons_append]
  exact ⟨_, rfl⟩

theorem written_escaped (hv : WritableName v) : Identifier.Written [[' ']] v.toList (escaped v) := by
  obtain ⟨c, cs, hl, hc, hcs⟩ := name_cons hv
  rw [escaped, hl, List.flatMap_cons]
  exact .mk (written_escape hc List.mem_cons_self) (writtenTail_escapes hcs)

theorem read_escaped (hv : WritableName v) (hk : Stops k) : Identifier.read (escaped v ++ k) = .ok (v.toList, k) := by
  have hread := (written_escaped hv).read_append (by decide) (k := k) fun h => absurd h (by decide)
  rw [hread, hk.readTail]
  exact Identifier.prepend_eq_ok.2 ⟨[], rfl, (List.append_nil _).symm⟩

theorem decode_escaped (hv : WritableName v) : Identifier.decode (escaped v) = .ok v.toList :=
  Identifier.decode_of_read ((written_escaped hv).read (by decide))

/-! Rules that match what is written. -/

/-- A rule takes a text in front of another and makes one node of it, which is read as a value and has
no more brackets inside one another than the value allows. -/
def Writes {α : Type} (r : Rule) (f : Node → Result α) (within : Nat → Prop) (x : α) (w k : List Char) : Prop :=
  ∃ n, r.run (w ++ k) = some (k, [n]) ∧ n.rule = r ∧ f n = .ok x ∧ ∀ d, within d → n.nesting ≤ d

/-- Values without brackets. -/
def Flat (_ : Nat) : Prop := True

theorem writes_ident (hv : WritableName v) (hk : Stops k) :
    Writes .ident OfNodes.identifier Flat v (escaped v) k := by
  refine ⟨_, Identifier.run_ident_of_read (read_escaped hv hk), rfl, ?_, fun d _ => Nat.zero_le d⟩
  have htext : (⟨.ident, escaped v ++ k, k, []⟩ : Node).text = escaped v := Place.between_append _ _
  rw [OfNodes.identifier, htext, decode_escaped hv]
  exact congrArg _ (String.ofList_toList)

theorem written_quoted (q : Char) {cs : List Char} (hcs : '\x00' ∉ cs) : Quoted.Written q cs (cs.flatMap escape) := by
  induction cs with
  | nil => exact .nil
  | cons c cs ih =>
      rw [List.mem_cons, not_or] at hcs
      exact .char (written_escape (Ne.symm hcs.1) List.mem_cons_self) (ih hcs.2)

theorem writes_string (hv : Writable v) (hw : encoded.quoted v w) (k : List Char) :
    Writes .string OfNodes.quoted Flat v w k := by
  obtain ⟨q, hq, rfl⟩ := hw
  have hwritten : Quoted.Written q v.toList (escaped v) := written_quoted q hv
  have happend : q :: (escaped v ++ q :: k) = q :: (escaped v ++ [q]) ++ k := by simp
  have hrun := hwritten.run_string hq k
  rw [happend] at hrun
  refine ⟨_, hrun, rfl, ?_, fun d _ => Nat.zero_le d⟩
  have htext : (⟨.string, q :: (escaped v ++ [q]) ++ k, k, []⟩ : Node).text = q :: (escaped v ++ [q]) :=
    Place.between_append _ _
  rw [OfNodes.quoted, htext, hwritten.decode hq]
  exact congrArg _ (String.ofList_toList)

/-! Blanks. -/

theorem closeComment?_append {b : List Char} (hb : ¬ ['*', '/'] <:+: b) (k : List Char) :
    Blank.closeComment? (b ++ '*' :: '/' :: k) = some k := by
  induction b with
  | nil => rfl
  | cons c b ih =>
      rw [List.infix_cons_iff, not_or] at hb
      have hc : ∀ r, c = '*' → b ++ '*' :: '/' :: k = '/' :: r → False := by
        rintro r rfl hr
        cases b with
        | nil => cases hr
        | cons d b =>
            cases hr
            exact hb.1 ⟨b, rfl⟩
      rw [List.cons_append, Blank.closeComment?]
      · exact ih hb.2
      · exact hc

theorem skip_blanks {b : List Char} (hb : Blanks b) (k : List Char) :
    Blank.skip (b ++ k) = Blank.skip k := by
  induction hb with
  | nil => rfl
  | whitespace hc _ ih => rw [List.cons_append, Blank.skip_whitespace hc, ih]
  | @comment b w hb _ ih =>
      have hcomment : Blank.comment? ('/' :: '*' :: (b ++ '*' :: '/' :: (w ++ k))) = some (w ++ k) :=
        closeComment?_append hb (w ++ k)
      have happ : '/' :: '*' :: (b ++ '*' :: '/' :: w) ++ k = '/' :: '*' :: (b ++ '*' :: '/' :: (w ++ k)) := by simp
      rw [happ, Blank.skip_comment hcomment, ih]

theorem skip_append (h : Blank.Settled (Blank.skip s ++ k)) : Blank.skip (s ++ k) = Blank.skip s ++ k := by
  obtain ⟨b, hb, hs⟩ := blanks_skip s
  have happend : s ++ k = b ++ (Blank.skip s ++ k) := by
    rw [← List.append_assoc, ← hs]
  rw [happend, skip_blanks hb, h.skip_eq]

theorem maybe_ws_of_blanks {b : List Char} (hb : Blanks b) (hk : Blank.Settled k) :
    (maybe ws).run Rule.run (b ++ k) = some (k, []) := by
  rw [Blank.run_maybe_ws, skip_blanks hb, hk.skip_eq]

theorem ws_of_blanks {b : List Char} (hb : Blanks b) (hne : b ≠ []) (hk : Blank.Settled k) :
    ws.run Rule.run (b ++ k) = some (k, []) := by
  have hs : Blank.skip (b ++ k) = k := by rw [skip_blanks hb, hk.skip_eq]
  refine Blank.run_ws_eq_some.2 ⟨fun h => ?_, hs.symm, rfl⟩
  rw [h.skip_eq] at hs
  exact hne (List.append_left_eq_self.1 hs)

theorem settled_of_head (hc : isWhitespace c = false) (hs : c ≠ '/') (r : List Char) :
    Blank.Settled (c :: r) := by
  refine ⟨?_, fun d u h => ?_⟩
  · unfold Blank.comment?
    split
    next heq => exact absurd (List.cons.inj heq).1 hs
    next => rfl
  · cases h
    exact hc

theorem settled_of_mem (cs : List Char)
    (hcs : cs.all (fun c => !isWhitespace c && c ≠ '/') = true)
    (hc : c ∈ cs) (r : List Char) : Blank.Settled (c :: r) := by
  have h := List.all_eq_true.1 hcs c hc
  simp only [Bool.and_eq_true, Bool.not_eq_true', decide_eq_true_eq] at h
  exact settled_of_head h.1 h.2 r

/-- Blanks begin with whitespace or with the slash of a comment. -/
theorem blanks_head {b : List Char} (hb : Blanks (c :: b)) : isWhitespace c = true ∨ c = '/' := by
  cases hb with
  | whitespace hc => exact Or.inl hc
  | comment => exact Or.inr rfl

end SelectorSyntax.Selector.Spelling
