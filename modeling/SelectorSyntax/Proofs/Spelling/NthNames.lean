import SelectorSyntax.Proofs.Bracket.Pairs
import SelectorSyntax.Proofs.Grammar.Tree
import SelectorSyntax.Proofs.Spelling.NthText
import SelectorSyntax.Proofs.Spelling.Pseudos
import SelectorSyntax.Proofs.Spelling.Writing

namespace SelectorSyntax.Selector.Spelling

open Grammar Expression Text OfNodes CharClass SelectorSyntax.Bracket

variable {k s t u v w : List Char} {ns : List Node}

/-! An `nth` name without escapes is always taken for one. -/

theorem run_letters_of_foldCase {cs : List Char} (hw : AnPlusB.foldCase w = AnPlusB.foldCase cs) (s : List Char) :
    (seqs (cs.map fun c => char (sameLetter c))).run Rule.run (w ++ s) = some (s, []) := by
  induction cs generalizing w with
  | nil =>
      obtain rfl : w = [] := List.map_eq_nil_iff.1 hw
      rfl
  | cons c cs ih =>
      obtain ⟨d, x, rfl, hd, hx⟩ := List.map_eq_cons_iff.1 hw
      have hc : (char (sameLetter c)).run Rule.run (d :: (x ++ s)) = some (x ++ s, []) := by
        have hcd : sameLetter c d = true := decide_eq_true hd.symm
        rw [run_char_cons, if_pos hcd]
      cases cs with
      | nil =>
          obtain rfl : x = [] := List.map_eq_nil_iff.1 hx
          exact hc
      | cons b cs => exact run_seq_eq_some.2 ⟨x ++ s, [], [], hc, ih hx, rfl⟩

/-- No name is the beginning of another, and none goes on with a parenthesis. -/
theorem eq_of_pseudoNames {a b : String} (ha : a ∈ AnPlusB.pseudoNames) (hb : b ∈ AnPlusB.pseudoNames)
    (hw : AnPlusB.foldCase w = AnPlusB.foldCase a.toList) (hu : AnPlusB.foldCase u = AnPlusB.foldCase b.toList)
    (h : w ++ '(' :: s = u ++ t) : u = w := by
  have hparen : ∀ b ∈ AnPlusB.pseudoNames, '(' ∉ AnPlusB.foldCase b.toList := by decide
  have hprefix : ∀ a ∈ AnPlusB.pseudoNames, ∀ b ∈ AnPlusB.pseudoNames,
      AnPlusB.foldCase b.toList <+: AnPlusB.foldCase a.toList →
        (AnPlusB.foldCase a.toList).length = (AnPlusB.foldCase b.toList).length := by decide
  rcases List.append_eq_append_iff.1 h with ⟨x, rfl, hx⟩ | ⟨x, rfl, -⟩
  · cases x with
    | nil => exact List.append_nil w
    | cons c x =>
        obtain rfl : '(' = c := (List.cons.inj hx).1
        have hmem : '(' ∈ AnPlusB.foldCase (w ++ '(' :: x) :=
          List.mem_map_of_mem (List.mem_append_right w List.mem_cons_self)
        rw [hu] at hmem
        exact absurd hmem (hparen b hb)
  · have hpre : AnPlusB.foldCase u <+: AnPlusB.foldCase (u ++ x) := by
      rw [AnPlusB.foldCase, AnPlusB.foldCase, List.map_append]
      exact List.prefix_append _ _
    rw [hu, hw] at hpre
    have hlen := hprefix a ha b hb hpre
    rw [← hu, ← hw, AnPlusB.foldCase, AnPlusB.foldCase, List.length_map, List.length_map, List.length_append] at hlen
    obtain rfl : x = [] := List.length_eq_zero_iff.1 (by omega)
    exact (List.append_nil u).symm

theorem run_nthName_of_isPseudoName (h : AnPlusB.isPseudoName (String.ofList w) = true) (s : List Char) :
    Rule.nthName.run (w ++ '(' :: s) ≠ none := by
  obtain ⟨a, ha, hw⟩ := List.any_eq_true.1 h
  have hw : AnPlusB.foldCase w = AnPlusB.foldCase a.toList := by
    simpa using (of_decide_eq_true hw).symm
  rw [ne_eq, Rule.run_eq_none]
  intro hnone
  have hnames : ∀ b, b ∈ ["nth-last-child", "nth-last-of-type", "nth-last-col", "nth-child", "nth-of-type",
      "nth-col"] ↔ b ∈ AnPlusB.pseudoNames := by
    intro b
    simp only [AnPlusB.pseudoNames, List.mem_cons, List.not_mem_nil, or_false]
    tauto
  rcases run_seq_eq_none.1 hnone with hnone | ⟨u, ns, hu, hnone⟩
  · have hcase := run_choices_eq_none.1 hnone _ (List.mem_map_of_mem ((hnames a).2 ha))
    have hrun : (caseless a).run Rule.run (w ++ '(' :: s) = some ('(' :: s, []) := run_letters_of_foldCase hw _
    rw [hrun] at hcase
    cases hcase
  · obtain ⟨e, he, hu⟩ := run_choices_some hu
    obtain ⟨b, hb, rfl⟩ := List.mem_map.1 he
    obtain ⟨x, hx, hf⟩ := run_caseless hu
    obtain rfl := eq_of_pseudoNames ha ((hnames b).1 hb) hw hf hx
    obtain rfl : '(' :: s = u := List.append_cancel_left hx
    have hp : (present (exactly '(')).run Rule.run ('(' :: s) = some ('(' :: s, []) :=
      run_present_eq_some.2 ⟨⟨_, run_exactly_cons _⟩, rfl, rfl⟩
    rw [hp] at hnone
    cases hnone

/-- The nodes behind the colons of a pseudo-class or pseudo-element. -/
inductive PseudoNodes : List Node → Prop
  | plain {m a} : m.IsMatch → m.rule = .nthName → a.IsMatch → a.rule = .nthArguments → PseudoNodes [m, a]
  | bare {m} : m.IsMatch → m.rule = .ident → PseudoNodes [m]
  | function {m a} : m.IsMatch → m.rule = .ident → a.IsMatch → a.rule = .arguments →
      (∀ v, Identifier.decode m.text = .ok v → AnPlusB.isPseudoName (String.ofList v) = true → '\\' ∈ m.text) →
      PseudoNodes [m, a]

theorem pseudoNodes_of_run (h : pseudoTail.run Rule.run s = some (t, ns)) : PseudoNodes ns := by
  rcases run_choice_eq_some.1 h with h | ⟨-, h⟩
  · obtain ⟨u, ms, ks, hm, ha, rfl⟩ := run_seq_eq_some.1 h
    obtain ⟨m, rfl, hmr, -, -, hm⟩ := Rule.isMatch_of_run rfl hm
    obtain ⟨a, rfl, har, -, -, ha⟩ := Rule.isMatch_of_run rfl ha
    exact .plain hm hmr ha har
  · obtain ⟨u, ms, ks, hn, hu, rfl⟩ := run_seq_eq_some.1 h
    obtain ⟨hnone, rfl, rfl⟩ := run_absent_eq_some.1 hn
    obtain ⟨v, ms, ls, hv, ha, rfl⟩ := run_seq_eq_some.1 hu
    obtain ⟨m, rfl, hmr, rfl, rfl, hm⟩ := Rule.isMatch_of_run rfl hv
    rcases run_maybe_eq_some.1 ha with ha | ⟨-, -, rfl⟩
    · obtain ⟨a, rfl, har, -, -, ham⟩ := Rule.isMatch_of_run rfl ha
      refine .function hm hmr ham har fun v hv hname => ?_
      obtain ⟨ks, hk, -⟩ := (Rule.run_node rfl).1 ha
      obtain ⟨x, _, _, ho, -, -⟩ := run_seq_eq_some.1 hk
      obtain ⟨hx, -⟩ := run_exactly_eq_some.1 ho
      -- Otherwise it would have been an `nth` name before it was an identifier.
      by_contra hb
      obtain rfl := Identifier.decode_of_not_mem hb hv
      apply run_nthName_of_isPseudoName hname x
      rw [← hx, hm.text_append]
      exact hnone
    · exact .bare hm hmr

theorem pseudoNodes_of_isMatch {n : Node} (h : n.IsMatch) (hr : n.rule = .pseudoClass ∨ n.rule = .pseudoElement) :
    PseudoNodes n.children := by
  obtain ⟨ms, hm, hc⟩ := h.body
  rcases hr with hr | hr
  · rw [hr] at hm hc
    obtain ⟨u, ks, ls, hu, hv, rfl⟩ := run_seq_eq_some.1 hm
    obtain ⟨-, rfl⟩ := run_exactly_eq_some.1 hu
    rw [hc]
    exact pseudoNodes_of_run hv
  · rw [hr] at hm hc
    obtain ⟨u, ks, ls, hu, hv, rfl⟩ := run_seq_eq_some.1 hm
    obtain ⟨-, rfl⟩ := run_literal_eq_some.1 hu
    rw [hc]
    exact pseudoNodes_of_run hv

/-! The argument of such a name with escapes: what the grammar of these names takes of it is all of it. -/

theorem balanced_blanks (h : Blanks w) (s : List Char) : Balanced (w ++ s) s [] := by
  induction h with
  | nil => exact .nil
  | whitespace hc _ ih => exact .unit (unit?_inert (inert_of (p := isWhitespace) (by decide) hc)) ih
  | @comment b w hb _ ih =>
      have hcomment : Blank.comment? ('/' :: '*' :: (b ++ '*' :: '/' :: (w ++ s))) = some (w ++ s) :=
        closeComment?_append hb (w ++ s)
      have happ : '/' :: '*' :: (b ++ '*' :: '/' :: w) ++ s = '/' :: '*' :: (b ++ '*' :: '/' :: (w ++ s)) := by simp
      rw [happ]
      exact .unit (unit?_comment hcomment) ih

theorem balanced_simple (h : Simple w) (s : List Char) : Balanced (w ++ s) s [] := by
  induction w with
  | nil => exact .nil
  | cons c w ih =>
      obtain ⟨hc, hw⟩ := List.forall_mem_cons.1 h
      refine .unit (unit?_inert ?_) (ih hw)
      rcases hc with hc | hc
      · exact inert_of (p := isWhitespace) (by decide) hc
      · have hsub : ['"', '\'', '(', '[', ')', ']', '\\', '/'] ⊆ special := by decide
        by_contra hn
        exact hc (hsub (special_of_not_inert (by simpa using hn)))

/-- The closer of an argument is where its brackets are balanced, whatever rule has matched it. -/
theorem eq_nil_of_run_nthArguments {a : Node} (ha : a.IsMatch) (hr : a.rule = .arguments)
    (h : Rule.nthArguments.run a.text = some (t, ns)) : t = [] := by
  obtain ⟨b₁, x, b₂, -, -, htext, hb₁, hx, hb₂, -⟩ := run_nthArguments h
  obtain ⟨ms, hm, -⟩ := ha.body
  have happ : a.start = '(' :: (b₁ ++ (x ++ (b₂ ++ ')' :: (t ++ a.stop)))) := by
    rw [← ha.text_append, htext]
    simp
  rw [hr, happ] at hm
  obtain ⟨u, ks, ls, hu, hv, -⟩ := run_seq_eq_some.1 hm
  obtain ⟨hs, -⟩ := run_exactly_eq_some.1 hu
  obtain ⟨-, rfl⟩ := List.cons.inj hs
  have hcalls : CallsPaired (body .arguments) a.start := callsPaired rfl a.start
  rw [happ] at hcalls
  have hclose := ((closes_group rfl rfl).balanced (fun q v hq => hcalls q v (.second hu hq)) hv).1
  have hnth := (balanced_blanks hb₁ _).trans
    ((balanced_simple hx.simple _).trans (balanced_blanks hb₂ (')' :: (t ++ a.stop))))
  have heq := hclose.closer_unique hnth ⟨_, _, _, rfl, rfl⟩ ⟨_, _, _, rfl, rfl⟩
  exact List.append_left_eq_self.1 (List.cons.inj heq).2.symm

end SelectorSyntax.Selector.Spelling
