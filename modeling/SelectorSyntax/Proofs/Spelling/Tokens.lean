import SelectorSyntax.Proofs.Assembly.Results
import SelectorSyntax.Proofs.Spelling.Free
import SelectorSyntax.Proofs.Tokens.Blank
import SelectorSyntax.Proofs.Tokens.Identifier
import SelectorSyntax.Proofs.Tokens.StringAgreement

namespace SelectorSyntax.Selector.Spelling

open Grammar Expression Text OfNodes

variable {s t w : List Char} {ns : List Node}

/-! Blanks. -/

theorem closeComment_split (h : Blank.closeComment? s = some t) :
    ∃ b, ¬ ['*', '/'] <:+: b ∧ s = b ++ '*' :: '/' :: t := by
  induction s using Blank.closeComment?.induct with
  | case1 s =>
      rw [Blank.closeComment?] at h
      cases h
      exact ⟨[], by simp, rfl⟩
  | case2 c s hc ih =>
      rw [Blank.closeComment?] at h
      · obtain ⟨b, hb, rfl⟩ := ih h
        refine ⟨c :: b, ?_, rfl⟩
        rw [List.infix_cons_iff]
        rintro (⟨u, hu⟩ | hu)
        · obtain ⟨rfl, rfl⟩ := List.cons.inj hu
          exact hc _ rfl rfl
        · exact hb hu
      · exact hc
  | case3 =>
      rw [Blank.closeComment?] at h
      cases h

theorem blanks_skip (s : List Char) : ∃ b, Blanks b ∧ s = b ++ Blank.skip s := by
  induction s using Blank.skip.induct with
  | case1 => exact ⟨[], .nil, by rw [Blank.skip_nil]; rfl⟩
  | case2 c r hc ih =>
      obtain ⟨b, hb, hr⟩ := ih
      refine ⟨c :: b, .whitespace hc hb, ?_⟩
      rw [Blank.skip_whitespace hc, List.cons_append, ← hr]
  | case3 c r hc t ht ih =>
      obtain ⟨b, hb, hr⟩ := ih
      obtain ⟨u, hu⟩ : ∃ u, c :: r = '/' :: '*' :: u ∧ Blank.closeComment? u = some t := by
        unfold Blank.comment? at ht
        split at ht
        next u heq => exact ⟨u, heq, ht⟩
        next => cases ht
      obtain ⟨x, hx, rfl⟩ := closeComment_split hu.2
      refine ⟨_, .comment hx hb, ?_⟩
      rw [Blank.skip_comment ht, hu.1]
      nth_rewrite 1 [hr]
      simp
  | case4 c r hc h =>
      exact ⟨[], .nil, by rw [Blank.skip_other (by simpa using hc) h]; rfl⟩

theorem maybe_ws_blanks (h : (maybe ws).run Rule.run s = some (t, ns)) :
    ∃ b, Blanks b ∧ s = b ++ t ∧ ns = [] := by
  rw [Blank.run_maybe_ws] at h
  cases h
  obtain ⟨b, hb, hs⟩ := blanks_skip s
  exact ⟨b, hb, hs, rfl⟩

theorem ws_blanks (h : ws.run Rule.run s = some (t, ns)) :
    ∃ b, Blanks b ∧ b ≠ [] ∧ s = b ++ t ∧ ns = [] := by
  obtain ⟨hs, rfl, rfl⟩ := Blank.run_ws_eq_some.1 h
  obtain ⟨b, hb, hb'⟩ := blanks_skip s
  refine ⟨b, hb, ?_, hb', rfl⟩
  rintro rfl
  exact hs (Blank.settled_iff.2 hb'.symm)

/-! Rules that make one node. -/

/-- What a rule matches spells the value that its node is read as. -/
def Reads {α : Type} (r : Rule) (f : Node → Result α) (R : α → List Char → Prop) (s : List Char) : Prop :=
  ∀ ⦃t ns⦄, r.run s = some (t, ns) → ∃ w n, s = w ++ t ∧ ns = [n] ∧ n.rule = r ∧ ∀ x, f n = .ok x → R x w

/-- A token is read from the text that it takes. -/
theorem run_token {r : Rule} (hr : r.isToken = true) (h : r.run s = some (t, ns)) :
    ∃ w, s = w ++ t ∧ ns = [⟨r, s, t, []⟩] ∧ (⟨r, s, t, []⟩ : Node).text = w := by
  have hsil : r.isSilent = false := by cases r <;> first | rfl | cases hr
  obtain ⟨ms, hm, rfl⟩ := (Rule.run_node hsil).1 h
  obtain ⟨w, rfl⟩ := run_suffix Rule.lawful_run (body r) hm
  exact ⟨w, rfl, by simp [hr], Place.between_append w t⟩

theorem reads_ident : Reads .ident OfNodes.identifier free.identifier s := by
  intro t ns h
  obtain ⟨w, rfl, rfl, hw⟩ := run_token rfl h
  refine ⟨w, _, rfl, rfl, rfl, fun x hx => ?_⟩
  rw [OfNodes.identifier, hw] at hx
  split at hx
  next v hv =>
    cases hx
    exact hv.trans (by rw [String.toList_ofList])
  next => cases hx

theorem reads_string : Reads .string OfNodes.quoted free.quoted s := by
  intro t ns h
  obtain ⟨w, rfl, rfl, hw⟩ := run_token rfl h
  refine ⟨w, _, rfl, rfl, rfl, fun x hx => ?_⟩
  obtain ⟨v, hv, -⟩ := Quoted.run_string_iff_read.1 ⟨_, h⟩
  have hr := Quoted.read_append hv []
  rw [List.append_nil] at hr
  rw [OfNodes.quoted, hw, Quoted.decode, hr] at hx
  cases hx
  exact hr.trans (by rw [String.toList_ofList])

theorem reads_matcher : Reads .attributeMatcher matcher (fun m w => w = m.symbol.toList) s := by
  intro t ns h
  obtain ⟨w, rfl, rfl, hw⟩ := run_token rfl h
  refine ⟨w, _, rfl, rfl, rfl, fun x hx => ?_⟩
  rw [matcher, hw] at hx
  split at hx
  next m hm =>
    cases hx
    have hs : x.symbol = String.ofList w := by simpa using List.find?_some hm
    rw [hs, String.toList_ofList]
  next => cases hx

theorem run_modifier (h : Rule.attributeModifier.run s = some (t, ns)) :
    ∃ c f, s = c :: t ∧ ns = [⟨.attributeModifier, s, t, []⟩] ∧
      AttributeModifier.ofFlag? (⟨.attributeModifier, s, t, []⟩ : Node).text = some f ∧ Flag f [c] := by
  obtain ⟨w, rfl, rfl, hw⟩ := run_token rfl h
  rw [hw]
  obtain ⟨ms, hm, -⟩ := (Rule.run_node rfl).1 h
  obtain ⟨u, ks, ls, hu, hv, -⟩ := run_seq_eq_some.1 hm
  obtain ⟨-, htu, -⟩ := run_absent_eq_some.1 hv
  rw [← htu] at hu
  have hletter {c : Char} {f : AttributeModifier} (hf : f.flag.toList = [c]) (hc : c.toLower = c)
      (h : (char (CharClass.sameLetter c)).run Rule.run (w ++ t) = some (t, ks)) :
      ∃ d, w = [d] ∧ Flag f [d] := by
    obtain ⟨d, hd, hs, -⟩ := run_char_eq_some.1 h
    have hw : w = [d] := (List.append_left_inj t).1 hs
    refine ⟨d, hw, ?_⟩
    have hcd : c.toLower = d.toLower := of_decide_eq_true hd
    rw [Flag, hf, List.map_cons, List.map_nil, ← hcd, hc]
  have hflag {f : AttributeModifier} {d : Char} (hd : Flag f [d]) : AttributeModifier.ofFlag? [d] = some f := by
    rw [Flag] at hd
    rw [AttributeModifier.ofFlag?, hd]
    cases f <;> rfl
  rcases run_choice_eq_some.1 hu with hu | ⟨-, hu⟩
  · obtain ⟨d, rfl, hd⟩ := hletter (f := .caseInsensitive) rfl rfl hu
    exact ⟨d, .caseInsensitive, rfl, rfl, hflag hd, hd⟩
  · obtain ⟨d, rfl, hd⟩ := hletter (f := .caseSensitive) rfl rfl hu
    exact ⟨d, .caseSensitive, rfl, rfl, hflag hd, hd⟩

/-- The closer of brackets. -/
theorem run_exactly_node {r : Rule} {c : Char} (hb : body r = .exactly c) (hr : r.isSilent = false) :
    r.run s = some (t, ns) ↔ s = c :: t ∧ ns = [⟨r, s, t, []⟩] := by
  rw [Rule.run_node hr, hb]
  constructor
  · rintro ⟨ms, hm, rfl⟩
    obtain ⟨rfl, rfl⟩ := run_exactly_eq_some.1 hm
    exact ⟨rfl, by simp⟩
  · rintro ⟨rfl, rfl⟩
    exact ⟨[], run_exactly_cons _, by simp⟩

end SelectorSyntax.Selector.Spelling
