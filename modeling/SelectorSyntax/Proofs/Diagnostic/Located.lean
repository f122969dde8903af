import SelectorSyntax.Proofs.Assembly.Defects
import SelectorSyntax.Proofs.Diagnostic.Position
import SelectorSyntax.Proofs.Tokens.StringAgreement

namespace SelectorSyntax.Grammar

variable {n m : Node} {ns : List Node} {s t : List Char}

theorem Ordered.start_suffix (h : Ordered s t ns) (hm : m ∈ ns) : m.start <:+ s := by
  induction h with
  | nil => cases hm
  | cons hs hn _ ih =>
      rcases List.mem_cons.1 hm with rfl | hm
      · exact hs
      · exact (ih hm).trans (hn.trans hs)

theorem Node.IsMatch.child_suffix (h : n.IsMatch) (hm : m ∈ n.children) : m.start <:+ n.start :=
  h.ordered.start_suffix hm

theorem Node.IsMatch.text_ne_nil (h : n.IsMatch) (hr : n.rule.takes = true) : n.text ≠ [] := by
  intro hnil
  have hlt := Rule.lawful_run.shorter hr h.2
  have happ := h.text_append
  rw [hnil, List.nil_append] at happ
  exact Nat.lt_irrefl _ (happ ▸ hlt)

end SelectorSyntax.Grammar

namespace SelectorSyntax.Bracket

open Text

variable {d : Nat} {st : State} {s p : List Char}

/-- The opener that is one too many is in the text. -/
theorem walk_error (h : walk d st s = .error p) : p ≠ [] ∧ p <:+ s := by
  fun_induction walk d st s with
  | case1 | case3 => cases h
  | case2 st r ih =>
      obtain ⟨hp, hs⟩ := ih h
      exact ⟨hp, hs.trans ((List.tail_suffix r).trans (List.suffix_cons _ r))⟩
  | case4 st c r _ _ _ t hr ih =>
      obtain ⟨hp, hs⟩ := ih h
      exact ⟨hp, hs.trans ((Quoted.readBody_suffix hr).trans (List.suffix_cons c r))⟩
  | case5 st c r _ _ t hc ih =>
      obtain ⟨hp, hs⟩ := ih h
      exact ⟨hp, hs.trans (Blank.comment?_suffix hc)⟩
  | case6 st c r =>
      cases h
      exact ⟨List.cons_ne_nil c r, List.suffix_rfl⟩
  | case7 st c r _ _ _ st' _ ih =>
      obtain ⟨hp, hs⟩ := ih h
      exact ⟨hp, hs.trans (List.suffix_cons c r)⟩

end SelectorSyntax.Bracket

namespace SelectorSyntax.Diagnostic.SyntaxError

open Grammar Selector Text Place

/-- The error is about a part of a text, between what stands before it and what is left. It is about nothing
only where nothing is left. -/
structure About (before part after : List Char) (e : SyntaxError) : Prop where
  start : Marks before e.location.start
  stop : Marks (before ++ part) e.location.stop
  found : e.found = if part.isEmpty then none else some (String.ofList part)
  ended : part = [] → after = []
  label : (e.label.offset, e.label.length) = e.location.span (byteSize (before ++ (part ++ after)))

def Located (input : List Char) (e : SyntaxError) : Prop :=
  ∃ before part after, input = before ++ (part ++ after) ∧ About before part after e

variable {before part after rest input place : List Char} {kind : Kind} {message : String}
  {expected : List Expectation} {positives negatives : List Rule} {report : Bracket.Report} {d : Nat}
  {o : Occurrence} {D : OfNodes.Defect} {e : SyntaxError} {root n : Node}

/-! The ways in which errors are made. -/

theorem marks_start (before part after : List Char) : Marks before
    (Location.ofOffsets (before ++ (part ++ after)) (byteSize before) (byteSize before + byteSize part)).start :=
  Position.marks_ofOffset before (part ++ after)

theorem marks_stop (before part after : List Char) : Marks (before ++ part)
    (Location.ofOffsets (before ++ (part ++ after)) (byteSize before) (byteSize before + byteSize part)).stop := by
  have h := Position.marks_ofOffset (before ++ part) after
  rw [List.append_assoc, byteSize_append] at h
  rw [Location.ofOffsets, Nat.max_eq_left (Nat.le_add_right _ _)]
  exact h

theorem about_ofSpan (hpart : part ≠ []) : About before part after
    (ofSpan (before ++ (part ++ after)) kind (byteSize before) (byteSize before + byteSize part) message expected) where
  start := marks_start before part after
  stop := marks_stop before part after
  found := by
    have hstop := (marks_stop before part after).offset
    have hexcerpt : excerptAt (before ++ (part ++ after)) (byteSize before) (byteSize (before ++ part)) = part := by
      rw [excerptAt, Reader.restAt_append, byteSize_append, Nat.add_sub_cancel_left, takeBytes_append]
    simp only [ofSpan, hstop, hexcerpt]
  ended := fun h => absurd h hpart
  label := rfl

theorem about_ofAttempts : About before (rest.take 1) (rest.drop 1)
    (ofAttempts (before ++ rest) (byteSize before) positives negatives report) := by
  have hrest := Reader.restAt_append before rest
  have hsplit : before ++ rest = before ++ (rest.take 1 ++ rest.drop 1) := by rw [List.take_append_drop]
  constructor
  · simp only [ofAttempts, Location.ofChar, hrest]
    rw [hsplit]
    exact marks_start _ _ _
  · simp only [ofAttempts, Location.ofChar, hrest]
    rw [hsplit]
    exact marks_stop _ _ _
  · simp only [ofAttempts, hrest]
  · intro h
    cases rest with
    | nil => rfl
    | cons c rest => cases h
  · rw [← hsplit]
    rfl

theorem located_ofAttempts (h : place <:+ input) :
    Located input (ofAttempts input (offsetOf input place) positives negatives report) := by
  obtain ⟨before, rfl⟩ := h
  rw [offsetOf_append]
  exact ⟨before, place.take 1, place.drop 1, by rw [List.take_append_drop], about_ofAttempts⟩

theorem located_ofSpan (hpart : part ≠ []) (h : part ++ after <:+ input) : Located input
    (ofSpan input kind (offsetOf input (part ++ after)) (offsetOf input (part ++ after) + byteSize part) message
      expected) := by
  obtain ⟨before, rfl⟩ := h
  rw [offsetOf_append]
  exact ⟨before, part, after, rfl, about_ofSpan hpart⟩

theorem located_tooDeep (hne : place ≠ []) (h : place <:+ input) :
    Located input (tooDeep input (offsetOf input place) d) := by
  obtain ⟨before, rfl⟩ := h
  obtain ⟨c, r, rfl⟩ := List.exists_cons_of_ne_nil hne
  have hstop : (Location.ofChar (before ++ c :: r) (byteSize before)).stop.offset = byteSize before + byteSize [c] := by
    have hmarks := (marks_stop before [c] r).offset
    rw [byteSize_append] at hmarks
    rw [Location.ofChar, Reader.restAt_append]
    exact hmarks
  rw [offsetOf_append, tooDeep, hstop]
  exact ⟨before, [c], r, rfl, about_ofSpan (List.cons_ne_nil c [])⟩

/-! Flaws of selectors. -/

theorem located_node (hn : n.IsMatch) (ht : n.rule.takes = true) (h : n.start <:+ input) : Located input
    (ofSpan input kind (offsetOf input n.start) (offsetOf input n.stop) message expected) := by
  have hstart := hn.text_append
  have hstop : offsetOf input n.stop = offsetOf input n.start + byteSize n.text := by
    obtain ⟨before, rfl⟩ := h
    rw [offsetOf_append, ← hstart, ← List.append_assoc, offsetOf_append, byteSize_append]
  rw [hstop, ← hstart]
  rw [← hstart] at h
  exact located_ofSpan (hn.text_ne_nil ht) h

/-- What an `nth` name takes is some text in its argument. -/
theorem written_ne_nil {place written : List Char} (hs : o.simple.IsMatch)
    (h : Occurrence.NthWritten o.simple place written) :
    written ≠ [] ∧ ∃ after, place = written ++ after ∧ written ++ after <:+ o.simple.start := by
  cases h with
  | @plain name a v hch _ hv =>
      have hmem : a ∈ o.simple.children := by simp [hch]
      have ha := (hs.child hmem).2
      obtain ⟨hvm, hvr⟩ := OfNodes.child?_isMatch ha hv
      have hvs := (ha.child_suffix (OfNodes.child?_mem hv).1).trans (hs.child_suffix hmem)
      exact ⟨hvm.text_ne_nil (by rw [hvr]; rfl), v.stop, hvm.text_append.symm, by rwa [hvm.text_append]⟩
  | @escaped name a m v he hrun hv =>
      have hmem : a ∈ o.simple.children := by simp [he.children]
      have ha := (hs.child hmem).2
      obtain ⟨k, hk, -, hks, -, hm⟩ := Rule.isMatch_of_run rfl hrun
      cases hk
      obtain ⟨hvm, hvr⟩ := OfNodes.child?_isMatch hm hv
      obtain ⟨w, hw⟩ := hm.child_suffix (OfNodes.child?_mem hv).1
      refine ⟨hvm.text_ne_nil (by rw [hvr]; rfl), v.stop ++ a.stop, ?_, ?_⟩
      · rw [← List.append_assoc, hvm.text_append]
      · refine List.IsSuffix.trans ⟨w, ?_⟩ (hs.child_suffix hmem)
        rw [← ha.text_append, ← hks, ← hw, ← hvm.text_append]
        simp

theorem located_ofDefect (ho : o.Has D) (hs : o.simple.IsMatch) (ht : o.simple.rule.takes = true)
    (hin : o.simple.start <:+ input) : Located input (ofDefect input D) := by
  cases ho with
  | afterElement => exact located_node hs ht hin
  | outOfRange _ hw =>
      obtain ⟨hne, after, rfl, hsuffix⟩ := written_ne_nil hs hw
      exact located_ofSpan hne (hsuffix.trans hin)
  | @notNth name a _ he =>
      have hmem : a ∈ o.simple.children := by simp [he.children]
      have ha := (hs.child hmem).2
      have has := hs.child_suffix hmem
      obtain ⟨w, hw⟩ : (Rule.nthArguments.failure a.text).place <:+ a.text := List.drop_suffix _ _
      refine located_ofAttempts (List.IsSuffix.trans ⟨w, ?_⟩ (has.trans hin))
      rw [← List.append_assoc, hw, ha.text_append]

/-- The simple selectors of a match are matches in it. -/
theorem simple_of_mem_ofRoot (h : root.IsMatch) (ho : o ∈ Occurrence.ofRoot root) :
    o.simple.IsMatch ∧ o.simple.rule.takes = true ∧ o.simple.start <:+ root.start := by
  have hmem : o.simple ∈ (Occurrence.ofRoot root).map Occurrence.simple := List.mem_map_of_mem ho
  have hstart := (Occurrence.ordered_ofRoot h).start_suffix hmem
  simp only [Occurrence.ofRoot, Occurrence.ofComplex, List.map_flatMap, Occurrence.map_ofSimples, List.mem_flatMap,
    Occurrence.mem_nodesOf] at hmem
  obtain ⟨l, ⟨hl, -⟩, x, ⟨hx, -⟩, c, ⟨hc, hcr⟩, hm⟩ := hmem
  obtain ⟨hr, hs⟩ := ((((h.child hl).2.child hx).2.child hc).2.child hm)
  have htakes : ∀ r ∈ (body .compoundSelector).callees, r.takes = true := by decide
  rw [hcr] at hr
  exact ⟨hs, htakes _ hr, hstart⟩

/-- The kind of the error that a text is refused with. -/
def refusal? {α : Type} : Except SyntaxError α → Option Kind
  | .ok _ => none
  | .error e => some e.kind

theorem refusal?_eq_some {α : Type} {x : Except SyntaxError α} {k : Kind} :
    refusal? x = some k ↔ ∃ e, x = .error e ∧ e.kind = k := by
  cases x with
  | ok => simp [refusal?]
  | error e => simp [refusal?]

end SelectorSyntax.Diagnostic.SyntaxError

namespace SelectorSyntax

open Diagnostic Text Place SyntaxError

/-- Where in the source an error is, and what is there. -/
structure Placed (input : String) (e : SyntaxError) (before part after : List Char) : Prop where
  split : input.toList = before ++ (part ++ after)
  start : Marks before e.location.start
  stop : Marks (before ++ part) e.location.stop
  ordered : e.location.start.offset ≤ e.location.stop.offset
  bounded : e.location.stop.offset ≤ input.utf8ByteSize
  found : e.location.start.offset < e.location.stop.offset → e.found = some (String.ofList part)
  ended : e.location.start.offset = e.location.stop.offset →
    e.found = none ∧ e.location.start.offset = input.utf8ByteSize

theorem located_of_parseWith {input : String} {options : ParseOptions} {e : SyntaxError}
    (h : parseWith input options = .error e) : Located input.toList e := by
  cases failsWith_of_parseWith h with
  | @tooDeep x hx =>
      rw [Bracket.scan] at hx
      split at hx
      next p hp =>
        cases hx
        obtain ⟨hne, hsuffix⟩ := Bracket.walk_error hp
        exact located_tooDeep hne hsuffix
      next => cases hx
  | unmatched => exact located_ofAttempts (List.drop_suffix _ _)
  | flawed hroot hstart hmem ho =>
      obtain ⟨hs, ht, hin⟩ := simple_of_mem_ofRoot hroot hmem
      exact located_ofDefect ho hs ht (hstart ▸ hin)

/-- Every error is placed on characters of the source. -/
theorem placed_of_parse_error {input : String} {options : ParseOptions} {e : SyntaxError}
    (h : parseWith input options = .error e) : ∃ before part after, Placed input e before part after := by
  obtain ⟨before, part, after, hinput, ha⟩ := located_of_parseWith h
  have hsize : input.utf8ByteSize = byteSize before + (byteSize part + byteSize after) := by
    rw [← byteSize_toList, hinput, byteSize_append, byteSize_append]
  have hstart := ha.start.offset
  have hstop := ha.stop.offset
  rw [byteSize_append] at hstop
  refine ⟨before, part, after, hinput, ha.start, ha.stop, by omega, by omega, fun hlt => ?_, fun heq => ?_⟩
  · have hne : part.isEmpty = false := by
      cases part with
      | nil => exact absurd hlt (by rw [hstart, hstop]; exact Nat.lt_irrefl _)
      | cons c part => rfl
    rw [ha.found, hne]
    rfl
  · have hnil : part = [] := by
      by_contra hne
      have hpos := byteSize_pos hne
      omega
    have hafter := ha.ended hnil
    subst hnil hafter
    exact ⟨ha.found, by rw [hstart, hsize]; rfl⟩

/-- The place behind a carriage return and a line feed. -/
theorem placed_of_parse_error_second_line :
    ∃ e, parseWith "é,\r\n(" ⟨.selectors, 0⟩ = .error e ∧ e.location = ⟨⟨5, 2, 1⟩, ⟨6, 2, 2⟩⟩ ∧
      ∃ before part after, Placed "é,\r\n(" e before part after := by
  have h : (parseWith "é,\r\n(" ⟨.selectors, 0⟩).mapError SyntaxError.location =
      .error ⟨⟨5, 2, 1⟩, ⟨6, 2, 2⟩⟩ := by cbv
  cases he : parseWith "é,\r\n(" ⟨.selectors, 0⟩ with
  | ok l =>
      rw [he] at h
      cases h
  | error e =>
      rw [he] at h
      exact ⟨e, rfl, Except.error.inj h, placed_of_parse_error he⟩

end SelectorSyntax
