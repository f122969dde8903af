import Mathlib.Data.List.Forall2
import SelectorSyntax.Parse

namespace SelectorSyntax.Grammar

theorem Rule.parse_eq_ok {r : Rule} {s : List Char} {x : List Char × List Node} (h : r.parse s = .ok x) :
    r.run s = some x := by
  rw [parse] at h
  split at h
  next => cases h
  next y hy =>
    cases h
    exact hy

end SelectorSyntax.Grammar

namespace SelectorSyntax.Selector.OfNodes

open Grammar

variable {ε α β : Type}

theorem bind_eq_ok {x : Except ε α} {f : α → Except ε β} {y : β} :
    (x >>= f) = .ok y ↔ ∃ a, x = .ok a ∧ f a = .ok y := by
  cases x with
  | error e =>
      constructor
      · intro h
        cases h
      · rintro ⟨a, ha, -⟩
        cases ha
  | ok a =>
      constructor
      · exact fun h => ⟨a, rfl, h⟩
      · rintro ⟨b, hb, h⟩
        cases hb
        exact h

theorem map_eq_ok {x : Except ε α} {f : α → β} {y : β} :
    x.map f = .ok y ↔ ∃ a, x = .ok a ∧ f a = y := by
  cases x with
  | error e =>
      constructor
      · intro h
        cases h
      · rintro ⟨a, ha, -⟩
        cases ha
  | ok a =>
      constructor
      · intro h
        cases h
        exact ⟨a, rfl, rfl⟩
      · rintro ⟨b, hb, rfl⟩
        cases hb
        rfl

/-- A list that is mapped well has been mapped one by one. -/
theorem mapM_eq_ok {f : α → Except ε β} {xs : List α} {ys : List β} :
    xs.mapM f = .ok ys ↔ List.Forall₂ (fun x y => f x = .ok y) xs ys := by
  induction xs generalizing ys with
  | nil =>
      rw [List.mapM_nil, List.forall₂_nil_left_iff]
      constructor
      · intro h
        cases h
        rfl
      · rintro rfl
        rfl
  | cons x xs ih =>
      rw [List.mapM_cons, bind_eq_ok, List.forall₂_cons_left_iff]
      constructor
      · rintro ⟨y, hy, h⟩
        obtain ⟨zs, hzs, h⟩ := bind_eq_ok.1 h
        cases h
        exact ⟨y, zs, hy, ih.1 hzs, rfl⟩
      · rintro ⟨y, zs, hy, hzs, rfl⟩
        exact ⟨y, hy, bind_eq_ok.2 ⟨zs, ih.2 hzs, rfl⟩⟩

theorem mem_of_mapM {f : α → Except ε β} {xs : List α} {ys : List β} {y : β}
    (h : xs.mapM f = .ok ys) (hy : y ∈ ys) :
    ∃ x ∈ xs, f x = .ok y := by
  have h := mapM_eq_ok.1 h
  induction h with
  | nil => cases hy
  | @cons x z xs ys hx _ ih =>
      rcases List.mem_cons.1 hy with rfl | hy
      · exact ⟨x, List.mem_cons_self, hx⟩
      · obtain ⟨w, hw, hwy⟩ := ih (mapM_eq_ok.2 ‹_›) hy
        exact ⟨w, List.mem_cons_of_mem x hw, hwy⟩

theorem exists_of_mapM {f : α → Except ε β} {xs : List α} {ys : List β} {x : α} (h : xs.mapM f = .ok ys)
    (hx : x ∈ xs) : ∃ y ∈ ys, f x = .ok y := by
  have h := mapM_eq_ok.1 h
  induction h with
  | nil => cases hx
  | @cons z y xs ys hy _ ih =>
      rcases List.mem_cons.1 hx with rfl | hx
      · exact ⟨y, List.mem_cons_self, hy⟩
      · obtain ⟨w, hw, hxw⟩ := ih (mapM_eq_ok.2 ‹_›) hx
        exact ⟨w, List.mem_cons_of_mem y hw, hxw⟩

/-- What each step keeps is kept by all of them. -/
theorem foldlM_keeps {f : β → α → Except ε β} {P : β → Prop} {xs : List α}
    (hf : ∀ b c, ∀ x ∈ xs, P b → f b x = .ok c → P c) {b c : β} (hb : P b) (h : xs.foldlM f b = .ok c) : P c := by
  induction xs generalizing b with
  | nil =>
      cases h
      exact hb
  | cons x xs ih =>
      rw [List.foldlM_cons] at h
      obtain ⟨a, ha, h⟩ := bind_eq_ok.1 h
      exact ih (fun b c y hy => hf b c y (List.mem_cons_of_mem x hy)) (hf b a x List.mem_cons_self hb ha) h

theorem item_eq_ok {n : Node} {p : Parameter} (h : item n = .ok p) :
    (n.rule ∈ [.string, .number, .ident, .argDelim] ∧ p = .text (String.ofList n.text)) ∨
    (n.rule = .argSpace ∧ p = .text " ") ∨
    (n.rule = .argGroup ∧ ∃ ps, groupItems n.children = .ok ps ∧
      p = .list (.text (String.ofList (n.start.take 1)) :: ps)) := by
  obtain ⟨r, s, t, ns⟩ := n
  cases r
  case string | number | ident | argDelim =>
    rw [item] at h
    cases h
    exact Or.inl ⟨by simp, rfl⟩
  case argSpace =>
    rw [item] at h
    cases h
    exact Or.inr (Or.inl ⟨rfl, rfl⟩)
  case argGroup =>
    rw [item] at h
    obtain ⟨ps, hps, rfl⟩ := map_eq_ok.1 h
    exact Or.inr (Or.inr ⟨rfl, ps, hps, rfl⟩)
  all_goals
    rw [item] at h <;> cases h

theorem items_cons_eq_ok {n : Node} {ns : List Node} {ps : List Parameter}
    (h : items (n :: ns) = .ok ps) :
    ∃ q qs, item n = .ok q ∧ items ns = .ok qs ∧ ps = q :: qs := by
  rw [items] at h
  obtain ⟨q, hq, h⟩ := bind_eq_ok.1 h
  obtain ⟨qs, hqs, h⟩ := bind_eq_ok.1 h
  cases h
  exact ⟨q, qs, hq, hqs, rfl⟩

theorem groupItems_cons_eq_ok {n : Node} {ns : List Node} {ps : List Parameter}
    (h : groupItems (n :: ns) = .ok ps) :
    ∃ qs rs, groupItems ns = .ok rs ∧ ps = qs ++ rs ∧
      (n.rule = .argument ∧ items n.children = .ok qs ∨
        n.rule ∈ [.parenClose, .bracketClose] ∧ qs = [.text (String.ofList n.text)]) := by
  obtain ⟨r, s, t, ms⟩ := n
  cases r
  case argument =>
    rw [groupItems] at h
    obtain ⟨qs, hqs, h⟩ := bind_eq_ok.1 h
    obtain ⟨rs, hrs, h⟩ := bind_eq_ok.1 h
    cases h
    exact ⟨qs, rs, hrs, rfl, Or.inl ⟨rfl, hqs⟩⟩
  case parenClose | bracketClose =>
    rw [groupItems] at h
    obtain ⟨qs, hqs, h⟩ := bind_eq_ok.1 h
    obtain ⟨rs, hrs, h⟩ := bind_eq_ok.1 h
    cases hqs
    cases h
    exact ⟨_, rs, hrs, rfl, Or.inr ⟨by simp, rfl⟩⟩
  all_goals
    rw [groupItems] at h <;> cases h

/-- What the node of a simple selector adds to the simple selectors before it. -/
inductive Adds (c : CompoundSelector) (n : Node) : CompoundSelector → Prop
  | type {t} : n.rule = .typeSelector → typeName n = .ok t → Adds c n { c with type := some t }
  | id {v} : n.rule = .idSelector → markedName n = .ok v → Adds c n (addSubclass c (.id v))
  | className {v} : n.rule = .classSelector → markedName n = .ok v → Adds c n (addSubclass c (.className v))
  | attributeTest {a} : n.rule = .attributeSelector → attributeSelector n = .ok a →
      Adds c n (addSubclass c (.attribute a))
  | pseudoClass {p} : n.rule = .pseudoClass → pseudo n = .ok p → Adds c n (addSubclass c (.pseudoClass p))
  | pseudoElement {p} : n.rule = .pseudoElement → pseudo n = .ok p →
      Adds c n { c with pseudos := c.pseudos ++ [.pseudoElement p] }

theorem addSimple_eq_ok {c c' : CompoundSelector} {n : Node} (h : addSimple c n = .ok c') :
    c.pseudoElement? = none ∧ Adds c n c' := by
  rw [addSimple] at h
  split at h
  next => cases h
  next hc =>
    refine ⟨hc, ?_⟩
    split at h
    next hr =>
      obtain ⟨t, ht, rfl⟩ := map_eq_ok.1 h
      exact .type hr ht
    next hr =>
      obtain ⟨v, hv, rfl⟩ := map_eq_ok.1 h
      exact .id hr hv
    next hr =>
      obtain ⟨v, hv, rfl⟩ := map_eq_ok.1 h
      exact .className hr hv
    next hr =>
      obtain ⟨a, ha, rfl⟩ := map_eq_ok.1 h
      exact .attributeTest hr ha
    next hr =>
      obtain ⟨p, hp, rfl⟩ := map_eq_ok.1 h
      exact .pseudoClass hr hp
    next hr =>
      obtain ⟨p, hp, rfl⟩ := map_eq_ok.1 h
      exact .pseudoElement hr hp
    next => cases h

theorem Adds.addSimple {c c' : CompoundSelector} {n : Node} (h : Adds c n c')
    (hc : c.pseudoElement? = none) :
    addSimple c n = .ok c' := by
  rw [OfNodes.addSimple, hc]
  cases h with
  | type hr ht =>
      simp only [hr, ht]
      rfl
  | id hr hv | className hr hv =>
      simp only [hr, hv]
      rfl
  | attributeTest hr ha =>
      simp only [hr, ha]
      rfl
  | pseudoClass hr hp | pseudoElement hr hp =>
      simp only [hr, hp]
      rfl

theorem chain_cons_eq_ok {k n : Node} {ns : List Node} {t : List (Combinator × CompoundSelector)}
    (h : chain (k :: n :: ns) = .ok t) :
    ∃ x c u, combinator k = .ok x ∧ compound n = .ok c ∧ chain ns = .ok u ∧ t = (x, c) :: u := by
  rw [chain] at h
  obtain ⟨x, hx, h⟩ := bind_eq_ok.1 h
  obtain ⟨c, hc, h⟩ := bind_eq_ok.1 h
  obtain ⟨u, hu, h⟩ := bind_eq_ok.1 h
  cases h
  exact ⟨x, c, u, hx, hc, hu, rfl⟩

theorem chain_append : ∀ (ns : List Node) {ms xs ys}, chain ns = .ok xs → chain ms = .ok ys →
    chain (ns ++ ms) = .ok (xs ++ ys)
  | [], _, _, _, h, h' => by
      cases h
      exact h'
  | [_], _, _, _, h, _ => nomatch h
  | _ :: _ :: ns, _, _, ys, h, h' => by
      obtain ⟨x, c, u, hx, hc, hu, rfl⟩ := chain_cons_eq_ok h
      have hrest := chain_append ns hu h'
      exact bind_eq_ok.2 ⟨x, hx, bind_eq_ok.2 ⟨c, hc, bind_eq_ok.2 ⟨u ++ ys, hrest, rfl⟩⟩⟩

theorem complex_eq_ok {n : Node} {x : ComplexSelector} (h : complex n = .ok x) :
    ∃ m ns c t, n.children = m :: ns ∧ compound m = .ok c ∧ chain ns = .ok t ∧ x = ⟨c, t⟩ := by
  rw [complex] at h
  split at h
  next => cases h
  next m ns hn =>
    obtain ⟨c, hc, h⟩ := bind_eq_ok.1 h
    obtain ⟨t, ht, h⟩ := bind_eq_ok.1 h
    cases h
    exact ⟨m, ns, c, t, hn, hc, ht, rfl⟩

theorem pseudo_eq_ok {n : Node} {p : Pseudo} (h : pseudo n = .ok p) :
    ∃ m ns, n.children = m :: ns ∧ pseudoName m = .ok p.name ∧
      (ns = [] ∧ p.parameter = none ∨
        ∃ a as v, ns = a :: as ∧ pseudoParameter p.name a = .ok v ∧ p.parameter = some v) := by
  rw [pseudo] at h
  split at h
  next => cases h
  next m ns hn =>
    obtain ⟨name, hname, h⟩ := bind_eq_ok.1 h
    cases ns with
    | nil =>
        cases h
        exact ⟨m, [], hn, hname, Or.inl ⟨rfl, rfl⟩⟩
    | cons a as =>
        obtain ⟨v, hv, h⟩ := bind_eq_ok.1 h
        cases h
        exact ⟨m, _, hn, hname, Or.inr ⟨a, as, v, rfl, hv, rfl⟩⟩

theorem nthText_eq_ok {place written : List Char} {v : Parameter} (h : nthText place written = .ok v) :
    v = .text (String.ofList (AnPlusB.normalize written)) ∧
      ∃ x, AnPlusB.read (AnPlusB.normalize written) = .ok x := by
  rw [nthText] at h
  split at h
  next x hx =>
    cases h
    exact ⟨rfl, x, hx⟩
  next => cases h
  next => cases h

theorem nthParameter_eq_ok {n : Node} {v : Parameter} (h : nthParameter n = .ok v) :
    ∃ k, child? n .nthValue = some k ∧ nthText k.start k.text = .ok v := by
  rw [nthParameter] at h
  split at h
  next k hk => exact ⟨k, hk, h⟩
  next => cases h

/-- The argument of an escaped `nth` name is one that such names take. -/
theorem escapedNthParameter_eq_ok {n : Node} {v : Parameter} (h : escapedNthParameter n = .ok v) :
    ∃ m k, Rule.nthArguments.run n.text = some ([], [m]) ∧ child? m .nthValue = some k ∧
      nthText (k.start ++ n.stop) k.text = .ok v := by
  rw [escapedNthParameter] at h
  split at h
  next => cases h
  next m hm =>
    split at h
    next k hk => exact ⟨m, k, Rule.parse_eq_ok hm, hk, h⟩
    next => cases h
  next => cases h

theorem argumentItems_eq_ok {n : Node} {ps : List Parameter} (h : argumentItems n = .ok ps) :
    (∃ a, child? n .argument = some a ∧ items a.children = .ok ps) ∨ child? n .argument = none ∧ ps = [] := by
  rw [argumentItems] at h
  split at h
  next a ha => exact Or.inl ⟨a, ha, h⟩
  next ha =>
    cases h
    exact Or.inr ⟨ha, rfl⟩

/-- A parameter is a number, the text of one behind an escaped name, or the items of an argument. -/
theorem pseudoParameter_eq_ok {name : String} {n : Node} {v : Parameter} (h : pseudoParameter name n = .ok v) :
    n.rule = .nthArguments ∧ nthParameter n = .ok v ∨
      n.rule = .arguments ∧ (AnPlusB.isPseudoName name = true ∧ escapedNthParameter n = .ok v ∨
        AnPlusB.isPseudoName name = false ∧ ∃ ps, argumentItems n = .ok ps ∧ v = .list ps) := by
  rw [pseudoParameter] at h
  split at h
  next hr => exact Or.inl ⟨hr, h⟩
  next hr =>
    split at h
    next hname => exact Or.inr ⟨hr, Or.inl ⟨hname, h⟩⟩
    next hname =>
      obtain ⟨ps, hps, rfl⟩ := map_eq_ok.1 h
      exact Or.inr ⟨hr, Or.inr ⟨by simpa using hname, ps, hps, rfl⟩⟩
  next => cases h

end SelectorSyntax.Selector.OfNodes

namespace SelectorSyntax

open Diagnostic Grammar Selector

/-- A whole text is taken as one match of the rule that it is read with. -/
theorem matchRoot_eq_ok {r : Rule} {input : List Char} {d : Nat} {root : Node}
    (h : matchRoot r input d = .ok root) :
    (∃ report, Bracket.scan input d = .ok report) ∧ ∃ t, r.run input = some (t, [root]) := by
  rw [matchRoot] at h
  split at h
  next => cases h
  next report hs =>
    refine ⟨⟨report, hs⟩, ?_⟩
    split at h
    next => cases h
    next t n hp =>
      cases h
      exact ⟨t, Rule.parse_eq_ok hp⟩
    next => cases h

/-- Where the scan passes, the text is matched as a whole if its rule matches. -/
theorem matchRoot_of_run {r : Rule} {input : List Char} {d : Nat} {report : Bracket.Report} {t : List Char}
    {root : Node} (hs : Bracket.scan input d = .ok report) (h : r.run input = some (t, [root])) :
    matchRoot r input d = .ok root := by
  simp only [matchRoot, hs, Rule.parse, h]

/-- Where the rule does not match, what it tried in vain is reported. -/
theorem matchRoot_of_none {r : Rule} {input : List Char} {d : Nat} {report : Bracket.Report}
    (hs : Bracket.scan input d = .ok report) (h : r.run input = none) :
    matchRoot r input d = .error (.ofAttempts input (Text.Place.offsetOf input (r.failure input).place)
      (r.failure input).positives (r.failure input).negatives report) := by
  simp only [matchRoot, hs, Rule.parse, h]

theorem parseSelectorList_eq_ok {input : List Char} {d : Nat} {list : SelectorList}
    (h : parseSelectorList input d = .ok list) :
    ∃ root, matchRoot .selectors input d = .ok root ∧ OfNodes.selectors root = .ok list := by
  obtain ⟨root, hm, hs⟩ := OfNodes.bind_eq_ok.1 h
  refine ⟨root, hm, ?_⟩
  cases hr : OfNodes.selectors root with
  | error e =>
      rw [hr] at hs
      cases hs
  | ok l =>
      rw [hr] at hs
      cases hs
      rfl

theorem parseTextFragment_eq_ok {input : List Char} {d : Nat} {v : Parameter}
    (h : parseTextFragment input d = .ok v) :
    ∃ root ps, matchRoot .text input d = .ok root ∧ OfNodes.argumentItems root = .ok ps ∧ v = .list ps := by
  obtain ⟨root, hm, hs⟩ := OfNodes.bind_eq_ok.1 h
  rw [OfNodes.text] at hs
  cases hr : OfNodes.argumentItems root with
  | error e =>
      rw [hr] at hs
      cases hs
  | ok ps =>
      rw [hr] at hs
      cases hs
      exact ⟨root, ps, hm, hr, rfl⟩

end SelectorSyntax
