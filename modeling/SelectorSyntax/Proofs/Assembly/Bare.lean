import SelectorSyntax.Proofs.Assembly.Depth
import SelectorSyntax.Proofs.Grammar.Bare

namespace SelectorSyntax.Selector.OfNodes

open Grammar Text

variable {ε α β : Type} {n m : Node} {ns ms : List Node}

/-! What the nodes of a match are read as does not depend on the text behind it. -/

theorem toOption_bind (x : Except ε α) (f : α → Except ε β) :
    (x >>= f).toOption = x.toOption.bind fun a => (f a).toOption := by
  cases x <;> rfl

theorem toOption_map (x : Except ε α) (f : α → β) : (x.map f).toOption = x.toOption.map f := by
  cases x <;> rfl

theorem toOption_eq_some {x : Except ε α} {a : α} : x.toOption = some a ↔ x = .ok a := by
  cases x with
  | ok b =>
      constructor
      · rintro ⟨⟩
        rfl
      · rintro ⟨⟩
        rfl
  | error e =>
      constructor
      · rintro ⟨⟩
      · rintro ⟨⟩

@[simp] theorem rule_bare (n : Node) : n.bare.rule = n.rule := by
  cases n
  rfl

@[simp] theorem text_bare (n : Node) : n.bare.text = n.text := by
  obtain ⟨r, s, t, ns⟩ := n
  have h := Place.between_append (Place.between s t) []
  rwa [List.append_nil] at h

@[simp] theorem children_bare (n : Node) : n.bare.children = n.children.map Node.bare := by
  cases n
  exact Node.bareOfAll_eq_map _

theorem child?_bare (n : Node) (r : Rule) : child? n.bare r = (child? n r).map Node.bare := by
  simp only [child?, children_bare, List.find?_map, Function.comp_def, rule_bare]

theorem identifier_bare (n : Node) : (identifier n.bare).toOption = (identifier n).toOption := by
  rw [identifier, identifier, text_bare]
  cases Identifier.decode n.text <;> rfl

theorem quoted_bare (n : Node) : (quoted n.bare).toOption = (quoted n).toOption := by
  rw [quoted, quoted, text_bare]
  cases Quoted.decode n.text <;> rfl

theorem typeName_bare (n : Node) : (typeName n.bare).toOption = (typeName n).toOption := by
  rw [typeName, typeName, children_bare]
  cases n.children with
  | nil => rfl
  | cons k ks =>
      simp only [List.map_cons, List.head?_cons, rule_bare]
      split
      · rfl
      · exact identifier_bare k
      · rfl

theorem markedName_bare (n : Node) : (markedName n.bare).toOption = (markedName n).toOption := by
  rw [markedName, markedName, children_bare]
  cases n.children with
  | nil => rfl
  | cons k ks => exact identifier_bare k

theorem matcher_bare (n : Node) : (matcher n.bare).toOption = (matcher n).toOption := by
  rw [matcher, matcher, text_bare]
  split <;> rfl

theorem attributeValue_bare (n : Node) : (attributeValue n.bare).toOption = (attributeValue n).toOption := by
  rw [attributeValue, attributeValue, rule_bare]
  split
  · rw [toOption_map, toOption_map, quoted_bare]
  · rw [toOption_map, toOption_map, identifier_bare]
  · rfl

theorem attributeMatch_bare (s t : List Char) (ns : List Node) :
    (attributeMatch s (ns.map Node.bare)).toOption = (attributeMatch t ns).toOption := by
  match ns with
  | [] | [_] => rfl
  | [_, _] => rfl
  | [m, v, _] =>
      simp only [List.map_cons, List.map_nil, attributeMatch, toOption_bind, matcher_bare, attributeValue_bare]
  | [m, v, f, _] =>
      simp only [List.map_cons, List.map_nil, attributeMatch, toOption_bind, matcher_bare, attributeValue_bare,
        text_bare]
  | _ :: _ :: _ :: _ :: _ :: _ => rfl

theorem attributeSelector_bare (n : Node) : (attributeSelector n.bare).toOption = (attributeSelector n).toOption := by
  rw [attributeSelector, attributeSelector, children_bare]
  cases n.children with
  | nil => rfl
  | cons k ks =>
      simp only [List.map_cons, toOption_bind, identifier_bare, attributeMatch_bare n.bare.start n.start]

/-! Arguments. A group begins with its bracket, which is part of its text. -/

theorem take_between {s t : List Char} (h : t.length < s.length) : (Place.between s t).take 1 = s.take 1 := by
  rw [Place.between, List.take_take, Nat.min_eq_left (by omega)]

theorem between_nil (s : List Char) : Place.between s [] = s := by
  simpa using Place.between_append s []

mutual

theorem item_bare : ∀ n : Node, n.IsMatch → (item n.bare).toOption = (item n).toOption
  | ⟨r, s, t, ns⟩, h => by
      rw [Node.bare]
      cases r
      case argGroup =>
        have hlt : t.length < s.length := Rule.lawful_run.shorter rfl h.2
        rw [item, item, toOption_map, toOption_map, groupItems_bare ns fun k hk => (h.child hk).2, take_between hlt]
      case string | number | ident | argDelim => rw [item, item, between_nil]
      case argSpace => rw [item, item]
      all_goals
        rw [item, item] <;> first | rfl | nofun

theorem items_bare : ∀ ns : List Node, (∀ n ∈ ns, n.IsMatch) →
    (items (Node.bareOfAll ns)).toOption = (items ns).toOption
  | [], _ => rfl
  | n :: ns, h => by
      obtain ⟨hn, hns⟩ := List.forall_mem_cons.1 h
      simp only [Node.bareOfAll, items, toOption_bind, item_bare n hn, items_bare ns hns]

theorem groupItems_bare : ∀ ns : List Node, (∀ n ∈ ns, n.IsMatch) →
    (groupItems (Node.bareOfAll ns)).toOption = (groupItems ns).toOption
  | [], _ => rfl
  | ⟨r, s, t, ks⟩ :: ns, h => by
      obtain ⟨hn, hns⟩ := List.forall_mem_cons.1 h
      have hchildren : ∀ k ∈ ks, k.IsMatch := fun k hk => (hn.child hk).2
      rw [Node.bareOfAll, Node.bare]
      cases r
      case argument =>
        simp only [groupItems, toOption_bind, items_bare ks hchildren, groupItems_bare ns hns]
      case parenClose | bracketClose =>
        simp only [groupItems, toOption_bind, between_nil, groupItems_bare ns hns]
      all_goals
        simp only [groupItems, toOption_bind]
        rfl

end

theorem argumentItems_bare (h : n.IsMatch) : (argumentItems n.bare).toOption = (argumentItems n).toOption := by
  rw [argumentItems, argumentItems, child?_bare]
  cases ha : child? n .argument with
  | none => rfl
  | some a =>
      have ham := (h.child (child?_mem ha).1).2
      simp only [Option.map_some, children_bare, ← Node.bareOfAll_eq_map]
      exact items_bare a.children fun k hk => (ham.child hk).2

theorem nthText_bare (place place' written : List Char) :
    (nthText place written).toOption = (nthText place' written).toOption := by
  rw [nthText, nthText]
  split <;> rfl

theorem nthParameter_bare (n : Node) : (nthParameter n.bare).toOption = (nthParameter n).toOption := by
  rw [nthParameter, nthParameter, child?_bare]
  cases child? n .nthValue with
  | none => rfl
  | some v =>
      simp only [Option.map_some, text_bare]
      exact nthText_bare v.bare.start v.start v.text

theorem escapedNthParameter_bare (n : Node) :
    (escapedNthParameter n.bare).toOption = (escapedNthParameter n).toOption := by
  rw [escapedNthParameter, escapedNthParameter, text_bare]
  split
  next => rfl
  next m _ =>
    split
    next => exact nthText_bare _ _ _
    next => rfl
  next => rfl

theorem pseudoName_bare (n : Node) : (pseudoName n.bare).toOption = (pseudoName n).toOption := by
  rw [pseudoName, pseudoName, rule_bare, text_bare]
  split
  · rfl
  · exact identifier_bare n
  · rfl

theorem pseudoParameter_bare (name : String) (h : n.IsMatch) :
    (pseudoParameter name n.bare).toOption = (pseudoParameter name n).toOption := by
  rw [pseudoParameter, pseudoParameter, rule_bare]
  split
  · exact nthParameter_bare n
  · split
    · exact escapedNthParameter_bare n
    · rw [toOption_map, toOption_map, argumentItems_bare h]
  · rfl

/-! Selectors. -/

theorem pseudo_bare (h : n.IsMatch) : (pseudo n.bare).toOption = (pseudo n).toOption := by
  have hchildren : ∀ k ∈ n.children, k.IsMatch := fun k hk => (h.child hk).2
  rw [pseudo, pseudo, children_bare]
  cases hc : n.children with
  | nil => rfl
  | cons k ks =>
      rw [hc] at hchildren
      simp only [List.map_cons, toOption_bind, pseudoName_bare]
      cases ks with
      | nil => rfl
      | cons a as =>
          have ha : a.IsMatch := hchildren a (by simp)
          simp only [List.map_cons, toOption_bind, pseudoParameter_bare _ ha]

theorem addSimple_bare (c : CompoundSelector) (h : n.IsMatch) :
    (addSimple c n.bare).toOption = (addSimple c n).toOption := by
  rw [addSimple, addSimple]
  split
  · rfl
  · rw [rule_bare]
    split
    · rw [toOption_map, toOption_map, typeName_bare]
    · rw [toOption_map, toOption_map, markedName_bare]
    · rw [toOption_map, toOption_map, markedName_bare]
    · rw [toOption_map, toOption_map, attributeSelector_bare]
    · rw [toOption_map, toOption_map, pseudo_bare h]
    · rw [toOption_map, toOption_map, pseudo_bare h]
    · rfl

theorem foldlM_addSimple_bare (h : ∀ n ∈ ns, n.IsMatch) (c : CompoundSelector) :
    ((ns.map Node.bare).foldlM addSimple c).toOption = (ns.foldlM addSimple c).toOption := by
  induction ns generalizing c with
  | nil => rfl
  | cons n ns ih =>
      obtain ⟨hn, hns⟩ := List.forall_mem_cons.1 h
      simp only [List.map_cons, List.foldlM_cons, toOption_bind, addSimple_bare c hn, ih hns]

theorem compound_bare (h : n.IsMatch) : (compound n.bare).toOption = (compound n).toOption := by
  rw [compound, compound, children_bare]
  exact foldlM_addSimple_bare (fun k hk => (h.child hk).2) .empty

theorem combinator_bare (n : Node) : (combinator n.bare).toOption = (combinator n).toOption := by
  rw [combinator, combinator, children_bare]
  cases n.children with
  | nil => rfl
  | cons k ks =>
      simp only [List.map_cons, List.head?_cons, rule_bare, text_bare]
      split
      · rfl
      · split <;> rfl
      · rfl

theorem chain_bare : ∀ ns : List Node, (∀ n ∈ ns, n.IsMatch) →
    (chain (ns.map Node.bare)).toOption = (chain ns).toOption
  | [], _ => rfl
  | [_], _ => rfl
  | k :: c :: ns, h => by
      have hc : c.IsMatch := h c (by simp)
      have hns : ∀ n ∈ ns, n.IsMatch := fun n hn => h n (by simp [hn])
      simp only [List.map_cons, chain, toOption_bind, combinator_bare, compound_bare hc, chain_bare ns hns]

theorem complex_bare (h : n.IsMatch) : (complex n.bare).toOption = (complex n).toOption := by
  have hchildren : ∀ k ∈ n.children, k.IsMatch := fun k hk => (h.child hk).2
  rw [complex, complex, children_bare]
  cases hc : n.children with
  | nil => rfl
  | cons k ks =>
      rw [hc] at hchildren
      obtain ⟨hk, hks⟩ := List.forall_mem_cons.1 hchildren
      simp only [List.map_cons, toOption_bind, compound_bare hk, chain_bare ks hks]

/-- Nodes of matches that differ in nothing but their places are read as the same. -/
theorem eq_ok_of_bare {f : Node → Result α} (hf : ∀ k : Node, k.IsMatch → (f k.bare).toOption = (f k).toOption)
    (hn : n.IsMatch) (hm : m.IsMatch) (h : m.bare = n.bare) {x : α} (hx : f n = .ok x) : f m = .ok x := by
  rw [← toOption_eq_some, ← hf m hm, h, hf n hn, hx]
  rfl

/-- Links that differ in nothing but their places are read as the same. -/
theorem chain_of_bare {xs : List (Combinator × CompoundSelector)} (hns : ∀ n ∈ ns, n.IsMatch)
    (hms : ∀ m ∈ ms, m.IsMatch) (hb : Node.bareOfAll ms = Node.bareOfAll ns) (h : chain ns = .ok xs) :
    chain ms = .ok xs := by
  rw [Node.bareOfAll_eq_map, Node.bareOfAll_eq_map] at hb
  rw [← toOption_eq_some, ← chain_bare ms hms, hb, chain_bare ns hns, h]
  rfl

end SelectorSyntax.Selector.OfNodes
