import SelectorSyntax.Proofs.Spelling.Basic
import SelectorSyntax.Proofs.Tokens.IdentifierAgreement
import SelectorSyntax.Proofs.Tokens.Written

namespace SelectorSyntax.Text.Identifier

open CharClass Selector

variable {cs k v w : List Char} {ends : List (List Char)}

/-- The ways to write the characters of a name behind the first, with `ends` to end the digits of escapes. -/
abbrev WrittenTail (ends : List (List Char)) : List Char → List Char → Prop :=
  Concat (Escape.Written (fun c => isIdentChar c = true) ends)

/-- The ways to write a name: each of its characters in any way. -/
inductive Written (ends : List (List Char)) : List Char → List Char → Prop
  | mk {c : Char} {cs x w : List Char} : Escape.Written (fun c => isIdentStart c = true) ends c x →
      WrittenTail ends cs w → Written ends (c :: cs) (x ++ w)

/-- A name goes on with no newline, so none can be taken for a part of the escape in front. -/
theorem head_of_writtenTail (hends : ends ⊆ Escape.endings) (h : WrittenTail ends cs w)
    (hk : k.head? ≠ some '\n') : (w ++ k).head? ≠ some '\n' := by
  cases h with
  | nil => exact hk
  | cons hx _ =>
      obtain ⟨d, r, rfl, rfl | hd⟩ := hx.head hends
      · simp
      · rintro h
        cases h
        cases hd

theorem readTail_written (hends : ends ⊆ Escape.endings) (h : WrittenTail ends cs w)
    (hk : ['\r'] ∈ ends → k.head? ≠ some '\n') : readTail (w ++ k) = (readTail k).prepend cs := by
  induction h with
  | nil => exact (prepend_nil _).symm
  | @cons c cs x w hx hw ih =>
      rw [List.append_assoc]
      rcases hx.read hends with ⟨hc, rfl⟩ | ⟨d, r, rfl, -, hread⟩
      · rw [List.singleton_append, readTail_char hc, ih, prepend_prepend]
        rfl
      · have hescape := hread (w ++ k) fun h => head_of_writtenTail hends hw (hk h)
        rw [List.cons_append, readTail_escape hescape, ih, prepend_prepend]
        rfl

/-- A name is read as far as it is written, and then what follows has of it. -/
theorem Written.read_append (hends : ends ⊆ Escape.endings) (h : Written ends v w)
    (hk : ['\r'] ∈ ends → k.head? ≠ some '\n') : read (w ++ k) = (readTail k).prepend v := by
  obtain @⟨c, cs, x, w, hx, hw⟩ := h
  have htail := readTail_written hends hw hk
  rw [List.append_assoc]
  rcases hx.read hends with ⟨hc, rfl⟩ | ⟨d, r, rfl, -, hread⟩
  · have hdash : (c :: (w ++ k)).head? ≠ some '-' := by
      rintro h
      cases h
      cases hc
    rw [List.singleton_append, read_start hdash, readHead_char hc, htail, prepend_prepend]
    rfl
  · have hescape := hread (w ++ k) fun h => head_of_writtenTail hends hw (hk h)
    rw [List.cons_append, read_start (by simp), readHead_escape hescape, htail, prepend_prepend]
    rfl

theorem Written.read (hends : ends ⊆ Escape.endings) (h : Written ends v w) : read w = .ok (v, []) := by
  have hread := h.read_append hends (k := []) fun _ => by simp
  rw [List.append_nil, readTail_nil] at hread
  exact hread.trans (prepend_eq_ok.2 ⟨[], rfl, (List.append_nil v).symm⟩)

end SelectorSyntax.Text.Identifier
