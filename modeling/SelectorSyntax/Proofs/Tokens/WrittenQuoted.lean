import SelectorSyntax.Proofs.Tokens.StringAgreement
import SelectorSyntax.Proofs.Tokens.Written

namespace SelectorSyntax.Text.Quoted

open Grammar CharClass

variable {q c : Char} {e k v w x : List Char}

/-- What may end the digits of an escape between quotes. -/
def blanks : List (List Char) := [[' '], ['\t']]

/-- The newlines that a backslash continues the text behind. -/
def newlines : List (List Char) := [['\n'], ['\r'], ['\x0c'], ['\r', '\n']]

/-- The ways to write a text between two quotes `q`: each of its characters in any way, with lines continued
before, between and behind them. -/
inductive Written (q : Char) : List Char → List Char → Prop
  | nil : Written q [] []
  | continued {e v w : List Char} : e ∈ newlines → Written q v w → Written q v ('\\' :: (e ++ w))
  | char {c : Char} {v x w : List Char} : Escape.Written (Plain q) blanks c x → Written q v w →
      Written q (c :: v) (x ++ w)

theorem blanks_subset : blanks ⊆ Escape.endings := by decide

theorem plain_of_blank (hq : isQuote q = true) (he : e ∈ blanks) : ∀ c ∈ e, Plain q c := by
  simp only [blanks, List.mem_cons, List.not_mem_nil, or_false] at he
  rcases he with rfl | rfl <;> intro c hc <;> rw [List.mem_singleton.1 hc]
  · exact plain_of_terminator hq (.whitespace rfl) (fun n r h => by cases h; rfl) (List.mem_singleton_self _)
  · exact plain_of_terminator hq (.whitespace rfl) (fun n r h => by cases h; rfl) (List.mem_singleton_self _)

/-- What is written between the quotes goes on with no newline, so none can be taken for a part of what is in front. -/
theorem Written.head (hq : isQuote q = true) (h : Written q v w) (k : List Char) :
    (w ++ q :: k).head? ≠ some '\n' := by
  cases h with
  | nil =>
      rintro h
      cases h
      cases hq
  | continued => simp
  | char hx =>
      obtain ⟨d, r, rfl, rfl | hd⟩ := hx.head blanks_subset
      · simp
      · rintro h
        cases h
        cases hd.2.2

theorem continuation?_newline (he : e ∈ newlines) (hk : k.head? ≠ some '\n') : continuation? (e ++ k) = some k := by
  simp only [newlines, List.mem_cons, List.not_mem_nil, or_false] at he
  rcases he with rfl | rfl | rfl | rfl
  · rfl
  · rw [List.singleton_append, continuation?]
    · rfl
    · rintro v - rfl
      exact hk rfl
  · rfl
  · rfl

/-- No digits between quotes end with a carriage return. -/
theorem escape_read (hx : Escape.Written (Plain q) blanks c x) :
    Plain q c ∧ x = [c] ∨ ∃ d r, x = '\\' :: d :: r ∧ isNewline d = false ∧
      ∀ k : List Char, Escape.read (d :: r ++ k) = some (c, k) := by
  rcases hx.read blanks_subset with hc | ⟨d, r, hx, hd, hread⟩
  · exact Or.inl hc
  · exact Or.inr ⟨d, r, hx, hd, fun k => hread k fun h => absurd h (by decide)⟩

theorem Written.readBody (hq : isQuote q = true) (h : Written q v w) (k : List Char) :
    readBody q (w ++ q :: k) = some (v, k) := by
  induction h with
  | nil => exact readBody_close q k
  | continued he hw ih =>
      rw [List.cons_append, List.append_assoc,
        readBody_continue (backslash_ne_quote hq) (continuation?_newline he (hw.head hq k)), ih]
  | @char c v x w hx hw ih =>
      rw [List.append_assoc]
      rcases escape_read hx with ⟨hc, rfl⟩ | ⟨d, r, rfl, hd, hread⟩
      · rw [List.singleton_append, readBody_plain hc, ih]
        rfl
      · rw [List.cons_append, readBody_escape (backslash_ne_quote hq) (hread _), ih]
        rfl

theorem iterates_written (hq : isQuote q = true) (hx : Escape.Written (Plain q) blanks c x)
    (h : Iterates ((quotedPiece q).run Rule.run) w k []) : Iterates ((quotedPiece q).run Rule.run) (x ++ w) k [] := by
  cases hx with
  | itself hc => exact .next (run_quotedPiece_plain hc) h
  | escaped _ hn => exact .next (escape_piece hn) h
  | @code s e hs he =>
      have hw := (iterates_plain_append (plain_of_blank hq he)).2 h
      obtain ⟨d, r, rfl⟩ := List.exists_cons_of_ne_nil hs.ne_nil
      have hr : ∀ x ∈ r, Plain q x := fun x hx => plain_of_hex hq (hs.hex x (List.mem_cons_of_mem d hx))
      have hd := Escape.isNewline_of_hex (hs.hex d List.mem_cons_self)
      rw [List.cons_append, List.append_assoc]
      exact .next (escape_piece hd) ((iterates_plain_append hr).2 hw)

theorem Written.iterates (hq : isQuote q = true) (h : Written q v w) (k : List Char) :
    Iterates ((quotedPiece q).run Rule.run) (w ++ q :: k) (q :: k) [] := by
  induction h with
  | nil => exact .stop (run_quotedPiece_eq_none (backslash_ne_quote hq).symm (Or.inl rfl))
  | continued he hw ih =>
      rw [List.cons_append, List.append_assoc]
      exact .next (continuation_piece (continuation?_newline he (hw.head hq k))) ih
  | char hx _ ih =>
      rw [List.append_assoc]
      exact iterates_written hq hx ih

theorem Written.read (hq : isQuote q = true) (h : Written q v w) (k : List Char) :
    read (q :: (w ++ q :: k)) = some (v, k) := by
  rw [Quoted.read, if_pos hq, h.readBody hq]

theorem Written.decode (hq : isQuote q = true) (h : Written q v w) : decode (q :: (w ++ [q])) = some v := by
  rw [Quoted.decode, h.read hq]
  rfl

theorem Written.run_string (hq : isQuote q = true) (h : Written q v w) (k : List Char) :
    Rule.string.run (q :: (w ++ q :: k)) = some (k, [⟨.string, q :: (w ++ q :: k), k, []⟩]) :=
  run_string_eq_some.2 ⟨q, _, hq, rfl, h.iterates hq k, rfl⟩

end SelectorSyntax.Text.Quoted

namespace SelectorSyntax.Text.Reader

open Grammar Place

/-- However a text is written between quotes, the string token matches all of it, its value is the text, and the
reader of quoted text stops behind the closing quote. -/
theorem quoted_of_written {q : Char} {v w : List Char} (hq : CharClass.isQuote q = true) (h : Quoted.Written q v w) :
    Rule.string.run (q :: (w ++ [q])) = some ([], [⟨.string, q :: (w ++ [q]), [], []⟩]) ∧
      decodeQuoted (q :: (w ++ [q])) = .ok v ∧
      ∀ before after, quoted (before ++ q :: (w ++ q :: after)) (byteSize before) =
        .ok (v, byteSize (before ++ q :: (w ++ [q]))) := by
  refine ⟨h.run_string hq [], ?_, fun before after => ?_⟩
  · rw [decodeQuoted, h.decode hq]
  · refine quoted_eq_ok.2 ⟨after, h.read hq after, ?_⟩
    have happend : before ++ q :: (w ++ q :: after) = before ++ q :: (w ++ [q]) ++ after := by simp
    rw [happend, offsetOf_append]

/-- Digits of both cases, continued lines of both kinds and a quote behind a backslash. -/
theorem quoted_of_written_lines : CharClass.isQuote '"' = true ∧
    Quoted.Written '"' "kAé\"".toList "\\\nk\\000041 \\\r\n\\E9\t\\\"\\\r".toList ∧
    Rule.string.run "\"\\\nk\\000041 \\\r\n\\E9\t\\\"\\\r\"".toList =
      some ([], [⟨.string, "\"\\\nk\\000041 \\\r\n\\E9\t\\\"\\\r\"".toList, [], []⟩]) := by
  have hq : CharClass.isQuote '"' = true := rfl
  have hw : Quoted.Written '"' "kAé\"".toList "\\\nk\\000041 \\\r\n\\E9\t\\\"\\\r".toList :=
    .continued (e := ['\n']) (by decide) <| .char (x := ['k']) (.itself ⟨by decide, by decide, rfl⟩) <|
    .char (x := "\\000041 ".toList) (.code (s := "000041".toList) (e := [' ']) ⟨by decide, by decide, 4, rfl⟩ (by decide)) <|
    .continued (e := ['\r', '\n']) (by decide) <|
    .char (x := "\\E9\t".toList) (.code (s := "E9".toList) (e := ['\t']) ⟨by decide, by decide, 0, rfl⟩ (by decide)) <|
    .char (x := ['\\', '"']) (.escaped rfl rfl) <| .continued (e := ['\r']) (by decide) .nil
  exact ⟨hq, hw, (quoted_of_written hq hw).1⟩

end SelectorSyntax.Text.Reader
