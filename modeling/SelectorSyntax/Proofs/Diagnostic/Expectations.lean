import SelectorSyntax.Proofs.Diagnostic.Located
import SelectorSyntax.Proofs.Grammar.Failures

namespace SelectorSyntax.Diagnostic

open Grammar Selector

namespace Expectation

/-- A text as the bytes that it is compared by. -/
def bytes (t : String) : List UInt8 := t.toUTF8.data.toList

/-- What a rule is expected as, listed once each in the order of the descriptions. -/
structure Sorted (es : List Expectation) : Prop where
  entries : ∀ x ∈ es, ∃ r, x = ofRule r
  increasing : es.Pairwise fun a b => a.description < b.description

variable {e x : Expectation} {es : List Expectation} {rs : List Rule}

/-! What is said of the rules. -/

theorem inverted_ofRule (r : Rule) : (ofRule r).inverted = false := by cases r <;> rfl

/-- Descriptions are in ASCII, so their order is that of their bytes. -/
theorem bytes_ofRule {r q : Rule} (h : (ofRule r).description < (ofRule q).description) :
    bytes (ofRule r).description < bytes (ofRule q).description := by
  have hall : ∀ r ∈ Rule.all, ∀ q ∈ Rule.all, (ofRule r).description < (ofRule q).description →
      bytes (ofRule r).description < bytes (ofRule q).description := by decide +kernel
  exact hall r r.mem_all q q.mem_all h

theorem phrase_ofRule (r : Rule) : (ofRule r).phrase = (ofRule r).description := by
  rw [phrase, inverted_ofRule]
  rfl

theorem not_phrase_ofRule (r : Rule) : ¬ "not ".toList <+: (ofRule r).phrase.toList := by
  have hall : ∀ r ∈ Rule.all, ¬ "not ".toList <+: (ofRule r).phrase.toList := by decide +kernel
  exact hall r r.mem_all

/-! Insertion puts each description where it belongs. -/

theorem insert_ne_nil (e : Expectation) (es : List Expectation) : insert e es ≠ [] := by
  cases es with
  | nil => exact List.cons_ne_nil e []
  | cons x xs =>
      rw [insert]
      split
      next => exact List.cons_ne_nil _ _
      next => split <;> exact List.cons_ne_nil _ _

theorem mem_insert (h : x ∈ insert e es) : x = e ∨ x ∈ es := by
  induction es with
  | nil => exact Or.inl (List.mem_singleton.1 h)
  | cons y ys ih =>
      rw [insert] at h
      split at h
      next => exact List.mem_cons.1 h
      next =>
        split at h
        next =>
          rcases List.mem_cons.1 h with rfl | h
          · exact Or.inr List.mem_cons_self
          · exact (ih h).imp_right (List.mem_cons_of_mem y)
        next => exact Or.inr h

theorem precedes_iff (he : e.inverted = false) (hx : x.inverted = false) :
    e.precedes x = true ↔ e.description < x.description := by
  simp [precedes, he, hx]

theorem Sorted.inverted (h : Sorted es) (hx : x ∈ es) : x.inverted = false := by
  obtain ⟨r, rfl⟩ := h.entries x hx
  exact inverted_ofRule r

/-- An entry goes in front of the first that is larger, or is left out where an equal one stands. -/
theorem Sorted.insert (h : Sorted es) (r : Rule) : Sorted (insert (ofRule r) es) := by
  refine ⟨fun x hx => ?_, ?_⟩
  · rcases mem_insert hx with rfl | hx
    · exact ⟨r, rfl⟩
    · exact h.entries x hx
  · obtain ⟨hrules, hlt⟩ := h
    induction es with
    | nil => exact List.pairwise_singleton _ _
    | cons y ys ih =>
        obtain ⟨⟨q, rfl⟩, hys⟩ := List.forall_mem_cons.1 hrules
        obtain ⟨hy, hlt⟩ := List.pairwise_cons.1 hlt
        rw [Expectation.insert]
        split
        next hp =>
          have hry := (precedes_iff (inverted_ofRule r) (inverted_ofRule q)).1 hp
          refine List.pairwise_cons.2 ⟨fun x hx => ?_, List.pairwise_cons.2 ⟨hy, hlt⟩⟩
          rcases List.mem_cons.1 hx with rfl | hx
          · exact hry
          · exact String.lt_trans hry (hy x hx)
        next =>
          split
          next hp =>
            refine List.pairwise_cons.2 ⟨fun x hx => ?_, ih hys hlt⟩
            rcases mem_insert hx with rfl | hx
            · exact (precedes_iff (inverted_ofRule q) (inverted_ofRule r)).1 hp
            · exact hy x hx
          next => exact List.pairwise_cons.2 ⟨hy, hlt⟩

theorem sorted_ofAttempts (rs : List Rule) : Sorted (ofAttempts rs []) := by
  have key (es : List Expectation) (h : Sorted es) (rs : List Rule) :
      Sorted ((rs.map Expectation.ofRule).foldl (fun es e => Expectation.insert e es) es) := by
    induction rs generalizing es with
    | nil => exact h
    | cons r rs ih => exact ih _ (h.insert r)
  rw [ofAttempts, List.map_nil, List.append_nil]
  exact key [] ⟨by simp, .nil⟩ rs

theorem ofAttempts_ne_nil (h : rs ≠ []) : ofAttempts rs [] ≠ [] := by
  obtain ⟨qs, q, rfl⟩ := (List.eq_nil_or_concat rs).resolve_left h
  rw [ofAttempts]
  simpa using insert_ne_nil _ _

theorem Sorted.describe_eq (h : Sorted es) : describe es = joinPhrases (es.map description) := by
  have hphrases : es.map phrase = es.map description := List.map_congr_left fun x hx => by
    obtain ⟨r, rfl⟩ := h.entries x hx
    exact phrase_ofRule r
  rw [describe, hphrases]

/-- Expectations of which there are some, each once in the order of the bytes, and none of which is put as what
must not stand there. -/
structure Clean (es : List Expectation) : Prop where
  nonempty : es ≠ []
  increasing : es.Pairwise fun a b => bytes a.description < bytes b.description
  inverted : ∀ x ∈ es, x.inverted = false
  phrases : ∀ x ∈ es, x.phrase = x.description ∧ ¬ "not ".toList <+: x.phrase.toList

theorem Sorted.clean (h : Sorted es) (hne : es ≠ []) : Clean es := by
  refine ⟨hne, ?_, fun x hx => h.inverted hx, fun x hx => ?_⟩
  · refine h.increasing.imp_of_mem fun {a b} ha hb hab => ?_
    obtain ⟨r, rfl⟩ := h.entries a ha
    obtain ⟨q, rfl⟩ := h.entries b hb
    exact bytes_ofRule hab
  · obtain ⟨r, rfl⟩ := h.entries x hx
    exact ⟨phrase_ofRule r, not_phrase_ofRule r⟩

theorem sorted_afterPseudoElement : Sorted SyntaxError.afterPseudoElement := by
  refine ⟨?_, by decide⟩
  simp only [SyntaxError.afterPseudoElement, List.forall_mem_cons, List.not_mem_nil, false_imp_iff, implies_true,
    and_true]
  exact ⟨⟨_, rfl⟩, ⟨_, rfl⟩, ⟨_, rfl⟩⟩

theorem sorted_singleton (r : Rule) : Sorted [ofRule r] :=
  ⟨List.forall_mem_singleton.2 ⟨r, rfl⟩, List.pairwise_singleton _ _⟩

end Expectation

namespace SyntaxError

/-- What the message of an error is made of. Only of numbers and pseudo-elements it does not list what could have
stood there. -/
inductive Worded (e : SyntaxError) : Prop
  | listing : e.message = (if e.kind = .unexpectedInput then "" else e.kind.headline ++ ": ") ++ "expected " ++
      Expectation.joinPhrases (e.expected.map Expectation.description) ++ " but " ++
      describeFound ((e.found.map String.toList).getD []) ++ " found" → Worded e
  | afterElement {element simple} : e.kind = .pseudoElementNotLast →
      e.message = "pseudo-element is not last: \"::" ++ element ++ "\" cannot be followed by \"" ++ simple ++
        "\" in the same compound selector" → Worded e
  | outOfRange {written} : e.kind = .numberOutOfRange →
      e.message = "number out of range: \"" ++ written ++ "\" does not fit An+B" → Worded e

/-- The expectations of an error are a set in order, and the message lists them as they are described. -/
structure Plain (e : SyntaxError) : Prop where
  expected : Expectation.Clean e.expected
  worded : Worded e

variable {input : List Char} {d : Nat} {e : SyntaxError} {rs : List Rule}

theorem plain_ofAttempts (h : rs ≠ []) (offset : Nat) (brackets : Bracket.Report) :
    Plain (ofAttempts input offset rs [] brackets) := by
  have hsorted := Expectation.sorted_ofAttempts rs
  have hfound (s : List Char) :
      ((if s.isEmpty then none else some (String.ofList s)).map String.toList).getD [] = s := by
    cases s with
    | nil => rfl
    | cons c r => exact String.toList_ofList
  refine ⟨hsorted.clean (Expectation.ofAttempts_ne_nil h), .listing ?_⟩
  simp only [ofAttempts, hfound, describe, hsorted.describe_eq]
  split
  next => rw [String.empty_append]
  next => simp only [String.append_assoc]

theorem plain_of_failsWith (h : FailsWith input d e) (hk : e.kind ≠ .nestingTooDeep) : Plain e := by
  cases h with
  | tooDeep => exact absurd rfl hk
  | @unmatched r report hr _ hn =>
      have hnode : ∀ q ∈ [Rule.selectors, .text], q.isSilent = false := by decide
      rw [Rule.negatives_failure]
      exact plain_ofAttempts (Rule.positives_failure (hnode r hr) hn) _ report
  | @flawed root o D hroot _ ho hd =>
      cases hd with
      | afterElement =>
          exact ⟨Expectation.sorted_afterPseudoElement.clean (List.cons_ne_nil _ _), .afterElement rfl rfl⟩
      | outOfRange => exact ⟨(Expectation.sorted_singleton .nthValue).clean (List.cons_ne_nil _ _), .outOfRange rfl rfl⟩
      | @notNth name a _ he hn =>
          have ha : a.IsMatch := ((simple_of_mem_ofRoot hroot ho).1.child (by simp [he.children])).2
          have hnone : Rule.nthArguments.run a.text = none := by
            cases hrun : Rule.nthArguments.run a.text with
            | none => rfl
            | some x =>
                obtain ⟨t, ns⟩ := x
                obtain rfl := Spelling.eq_nil_of_run_nthArguments ha he.arguments hrun
                exact absurd hrun (hn ns)
          rw [ofDefect, Rule.negatives_failure]
          exact plain_ofAttempts (Rule.positives_failure rfl hnone) _ .empty

end SyntaxError

end SelectorSyntax.Diagnostic

namespace SelectorSyntax

open Diagnostic Grammar

/-- A failed match is told by rules that did not match alone, and so is every error that is not about nesting. -/
theorem expectations_of_failure :
    (∀ r ∈ [Rule.selectors, .text, .nthArguments], ∀ s f, r.parse s = .error f → f.negatives = [] ∧ f.positives ≠ []) ∧
    ∀ input options e, parseWith input options = .error e → e.kind ≠ .nestingTooDeep → SyntaxError.Plain e := by
  refine ⟨fun r hr s f h => ?_, fun input options e h => SyntaxError.plain_of_failsWith (failsWith_of_parseWith h)⟩
  have hnode : ∀ q ∈ [Rule.selectors, .text, .nthArguments], q.isSilent = false := by decide
  rw [Rule.parse] at h
  split at h
  next hn =>
    cases h
    exact ⟨Rule.negatives_failure r s, Rule.positives_failure (hnode r hr) hn⟩
  next => cases h

/-- A name that takes a number and has none: the name itself is tried twice, to match and not to. -/
theorem expectations_of_failure_nth :
    (∃ f, Rule.selectors.parse ":nth-child(x)".toList = .error f ∧ f.negatives = [] ∧ f.positives ≠ []) ∧
    ∃ e, parseWith ":nth-child(x)" {} = .error e ∧ e.kind ≠ .nestingTooDeep ∧ SyntaxError.Plain e := by
  have hnone : Rule.selectors.run ":nth-child(x)".toList = none := by rfl
  have hf : Rule.selectors.parse ":nth-child(x)".toList = .error (Rule.selectors.failure ":nth-child(x)".toList) := by
    rw [Rule.parse, hnone]
  have hk : SyntaxError.refusal? (parseWith ":nth-child(x)" {}) = some .unexpectedInput := by decide +kernel
  obtain ⟨e, he, hke⟩ := SyntaxError.refusal?_eq_some.1 hk
  have hne : e.kind ≠ .nestingTooDeep := by
    rw [hke]
    decide
  exact ⟨⟨_, hf, expectations_of_failure.1 .selectors (by decide) _ _ hf⟩, e, he, hne,
    expectations_of_failure.2 _ _ e he hne⟩

end SelectorSyntax
