import SelectorSyntax.Proofs.Bracket.Inside
import SelectorSyntax.Proofs.Spelling.NthNames
import SelectorSyntax.Proofs.Spelling.WrittenSimple

namespace SelectorSyntax.Selector.Spelling

open Grammar Expression Text CharClass SelectorSyntax.Bracket

variable {e : Expression} {c d : Char} {k s t u v w : List Char} {ns : List Node}

/-! Names that are known. -/

/-- A name without escapes. -/
theorem run_ident_plain (hc : isIdentStart c = true) (hw : ∀ d ∈ w, isIdentChar d = true) (hk : Stops k) :
    Rule.ident.run (c :: (w ++ k)) = some (k, [⟨.ident, c :: (w ++ k), k, []⟩]) := by
  have hstart : nmstart.run Rule.run (c :: (w ++ k)) = some (w ++ k, []) :=
    Identifier.run_nmstart_eq_some.2 ⟨Or.inr ⟨c, hc, rfl⟩, rfl⟩
  refine Identifier.run_ident_eq_some.2 ⟨w ++ k, .start hstart, ?_, rfl⟩
  clear hstart hc
  induction w with
  | nil => exact .stop hk.run_nmchar
  | cons d w ih =>
      have hd : nmchar.run Rule.run (d :: (w ++ k)) = some (w ++ k, []) :=
        Identifier.run_nmchar_eq_some.2 ⟨Or.inr ⟨d, hw d List.mem_cons_self, rfl⟩, rfl⟩
      exact .next hd (ih fun c hc => hw c (List.mem_cons_of_mem d hc))

theorem plain_of_isPseudoName (h : AnPlusB.isPseudoName (String.ofList w) = true) :
    ∃ c v, w = c :: v ∧ isIdentStart c = true ∧ ∀ d ∈ v, isIdentChar d = true := by
  obtain ⟨a, ha, hw⟩ := List.any_eq_true.1 h
  have hw : AnPlusB.foldCase w = AnPlusB.foldCase a.toList := by simpa using (of_decide_eq_true hw).symm
  obtain ⟨c, u, hfold, hc, hu⟩ := pseudoNames_plain a ha
  rw [hfold] at hw
  obtain ⟨d, v, rfl, rfl, rfl⟩ := List.map_eq_cons_iff.1 hw
  refine ⟨d, v, rfl, of_toLower isIdentStart_of_isAlpha hc, fun e he => of_toLower isIdentChar_of_isAlpha ?_⟩
  exact List.all_eq_true.1 hu _ (List.mem_map_of_mem he)

theorem stops_paren (k : List Char) : Stops ('(' :: k) := .cons rfl (by decide)

theorem run_ident_of_isPseudoName (h : AnPlusB.isPseudoName (String.ofList w) = true) (k : List Char) :
    Rule.ident.run (w ++ '(' :: k) = some ('(' :: k, [⟨.ident, w ++ '(' :: k, '(' :: k, []⟩]) := by
  obtain ⟨c, v, rfl, hc, hv⟩ := plain_of_isPseudoName h
  exact run_ident_plain hc hv (stops_paren k)

/-- The grammar takes for an `nth` name just these names, with a parenthesis behind them. -/
theorem run_nthName_eq_some : Rule.nthName.run s = some (t, ns) ↔
    ∃ w k, AnPlusB.isPseudoName (String.ofList w) = true ∧ s = w ++ t ∧ t = '(' :: k ∧ ns = [⟨.nthName, s, t, []⟩] := by
  have hsplit {s t : List Char} {ns : List Node} (h : Rule.nthName.run s = some (t, ns)) :
      ∃ w k, AnPlusB.isPseudoName (String.ofList w) = true ∧ s = w ++ t ∧ t = '(' :: k ∧
        ns = [⟨.nthName, s, t, []⟩] := by
    obtain ⟨w, hs, hns, -, -, hw⟩ := run_nthName h
    obtain ⟨ms, hm, -⟩ := (Rule.run_node rfl).1 h
    obtain ⟨u, _, _, -, hp, -⟩ := run_seq_eq_some.1 hm
    obtain ⟨⟨⟨k, ks⟩, hk⟩, rfl, -⟩ := run_present_eq_some.1 hp
    exact ⟨w, k, hw, hs, (run_exactly_eq_some.1 hk).1, hns⟩
  constructor
  · exact hsplit
  · rintro ⟨w, k, hw, rfl, rfl, rfl⟩
    obtain ⟨⟨t, ns⟩, hx⟩ := Option.ne_none_iff_exists'.1 (run_nthName_of_isPseudoName hw k)
    obtain ⟨v, r, hv, hs, rfl, rfl⟩ := hsplit hx
    -- Both are the identifier in front of the parenthesis.
    have hw := run_ident_of_isPseudoName hw k
    rw [hs, run_ident_of_isPseudoName hv r] at hw
    cases hw
    exact hx

/-! The same for what is only taken. -/

theorem keeps_ident (hk : Parts v k) : (call .ident).Keeps u k v :=
  keeps_token rfl fun _ ⟨_, h⟩ => ⟨_, run_ident_replace h hk.stops.run_nmchar hk.ends⟩

theorem keeps_string : (call .string).Keeps u k v := keeps_token rfl fun _ ⟨_, h⟩ => run_string_replace h k

theorem consumes_blanks : (maybe ws).Consumes s t ↔ t = Blank.skip s := by
  constructor
  · rintro ⟨ns, h⟩
    rw [Blank.run_maybe_ws] at h
    cases h
    rfl
  · rintro rfl
    exact ⟨[], Blank.run_maybe_ws s⟩

theorem keeps_blanks (hk : Blank.Settled (v ++ k)) : (maybe ws).Keeps u k v := by
  refine keeps_callFree rfl fun s ⟨ns, h⟩ => ?_
  obtain ⟨b, hb, hs, -⟩ := maybe_ws_blanks h
  rw [← List.append_assoc] at hs
  rw [eq_of_append_eq hs, List.append_assoc]
  exact ⟨[], maybe_ws_of_blanks hb hk⟩

theorem keeps_space (hk : Blank.Settled (v ++ k)) : ws.Keeps u k v := by
  refine keeps_callFree rfl fun s ⟨ns, h⟩ => ?_
  obtain ⟨b, hb, hne, hs, -⟩ := ws_blanks h
  rw [← List.append_assoc] at hs
  rw [eq_of_append_eq hs, List.append_assoc]
  exact ⟨[], ws_of_blanks hb hne hk⟩

/-- What may not begin with a blank is found where there is none. -/
theorem settled_of_consumes (he : e.takes = true)
    (hb : ('/' :: whitespace).all (fun c => !e.begins c (Rule.begins c)) = true) (h : e.Consumes s t) :
    Blank.Settled s := by
  obtain ⟨c, r, rfl, hc⟩ := h.exists_cons he
  have hnot := not_mem_of (p := fun c => e.begins c (Rule.begins c)) hb hc
  rw [List.mem_cons, not_or] at hnot
  exact settled_of_head (isWhitespace_eq_false hnot.2) hnot.1 r

end SelectorSyntax.Selector.Spelling
