import SelectorSyntax.Proofs.Spelling.WrittenSimple

namespace SelectorSyntax.Selector.Spelling

open Grammar Expression Text OfNodes

variable {e k r s t u w : List Char} {c : CompoundSelector} {ns : List Node}

/-! What begins a simple selector, and what follows a compound. -/

def marks : List Char := ['#', '.', '[', ':']

theorem run_type_mark {m : Char} (hm : m ∈ marks) (s : List Char) : Rule.typeSelector.run (m :: s) = none := by
  have hall : marks.all (fun c => !Rule.typeSelector.begins c) = true := by decide
  exact run_begins_none rfl (by simpa using List.all_eq_true.1 hall m hm) s

def followers : List Char := whitespace ++ ['/', ',', '>', '+', '~', '|', ')', ']']

def Follows (k : List Char) : Prop := ∀ c r, k = c :: r → c ∈ followers

theorem apart_of_mem (cs : List Char)
    (hcs : cs.all (fun c => !CharClass.isIdentChar c && c ≠ '\\') = true)
    (hp : '(' ∉ cs) (hk : ∀ c r, k = c :: r → c ∈ cs) : Apart k := by
  refine ⟨stops_of_mem cs hcs hk, ?_⟩
  rintro r rfl
  exact hp (hk _ _ rfl)

theorem Follows.apart (hk : Follows k) : Apart k := apart_of_mem followers rfl (by decide) hk

theorem Follows.run_simple (hk : Follows k) : simpleSelector.run Rule.run k = none := by
  cases k with
  | nil => exact run_nil_eq_none rfl
  | cons c k =>
      have hall : followers.all (fun c => !simpleSelector.begins c (Rule.begins c)) = true := by decide
      exact run_eq_none_of_begins k rfl (by simpa using List.all_eq_true.1 hall c (hk c k rfl))

theorem subclass_head {x : Selector.Subclass} (hw : encoded.Subclass x w) :
    ∃ c r, w = c :: r ∧ c ∈ marks := by
  cases hw with
  | id => exact ⟨_, _, rfl, by decide⟩
  | className => exact ⟨_, _, rfl, by decide⟩
  | bracketed hw =>
      cases hw
      exact ⟨_, _, rfl, by decide⟩
  | pseudoClass => exact ⟨_, _, rfl, by decide⟩

/-- Simple selectors begin with a mark. -/
theorem simple_head {xs : List Selector.Subclass} {es : List TrailingPseudo}
    (hs : Concat encoded.Subclass xs s)
    (he : encoded.Element es e) : s ++ e = [] ∧ xs = [] ∧ es = [] ∨ ∃ c r, s ++ e = c :: r ∧ c ∈ marks := by
  cases hs with
  | nil =>
      cases he with
      | none => exact Or.inl ⟨rfl, rfl, rfl⟩
      | element => exact Or.inr ⟨_, _, rfl, by decide⟩
  | cons hx _ =>
      obtain ⟨c, r, rfl, hc⟩ := subclass_head hx
      exact Or.inr ⟨c, _, rfl, hc⟩

theorem apart_simple {xs : List Selector.Subclass} {es : List TrailingPseudo}
    (hs : Concat encoded.Subclass xs s)
    (he : encoded.Element es e) (hk : Follows k) : Apart (s ++ (e ++ k)) := by
  rw [← List.append_assoc]
  rcases simple_head hs he with ⟨h, -⟩ | ⟨c, r, h, hc⟩
  · rw [h]
    exact hk.apart
  · rw [h]
    refine apart_of_mem marks rfl (by decide) fun d u hd => ?_
    cases hd
    exact hc

theorem pseudoElement?_of_nil (hc : c.pseudos = []) : c.pseudoElement? = none := by
  rw [CompoundSelector.pseudoElement?, hc]
  rfl

/-- The simple selectors of a compound behind its type, one after another. -/
theorem iterates_simple {xs : List Selector.Subclass} {es : List TrailingPseudo}
    (hxs : ∀ x ∈ xs, x.Writable)
    (hes : ∀ p, .pseudoElement p ∈ es → p.Writable) (hs : Concat encoded.Subclass xs s) (he : encoded.Element es e)
    (hk : Follows k) : ∃ ns, Iterates (simpleSelector.run Rule.run) (s ++ (e ++ k)) k ns ∧
      (∀ c : CompoundSelector, c.pseudos = [] →
        ns.foldlM addSimple c = .ok { c with subclasses := c.subclasses ++ xs, pseudos := es }) ∧
      ∀ d, (∀ x ∈ xs, subclassWithin d x) → (∀ t ∈ es, pseudoWithin t.value d) → Node.nestingOfAll ns ≤ d := by
  induction hs with
  | nil =>
      cases he with
      | none =>
          refine ⟨[], .stop hk.run_simple, fun c hc => ?_, fun d _ _ => Nat.zero_le d⟩
          rw [List.foldlM_nil, List.append_nil, ← hc]
          rfl
      | @element p w hw =>
          obtain ⟨n, hn, hadd, hd⟩ := writes_element (hes p (by simp)) hw hk.apart
          refine ⟨[n] ++ [], .next hn (.stop hk.run_simple), fun c hc => ?_, fun d _ hp => ?_⟩
          · have hc' : addSimple c n = .ok { c with pseudos := c.pseudos ++ [.pseudoElement p] } :=
              (hadd c).addSimple (pseudoElement?_of_nil hc)
            rw [hc, List.nil_append] at hc'
            rw [List.append_nil, List.append_nil, List.foldlM_cons, hc']
            rfl
          · have hn := hd d (hp _ List.mem_cons_self)
            simpa using hn
  | @cons x xs w u hx hu ih =>
      have happend : w ++ u ++ (e ++ k) = w ++ (u ++ (e ++ k)) := List.append_assoc w u (e ++ k)
      obtain ⟨n, hn, hadd, hd⟩ := writes_subclass (hxs x List.mem_cons_self) hx (apart_simple hu he hk)
      obtain ⟨ns, hns, hfold, hds⟩ := ih fun y hy => hxs y (List.mem_cons_of_mem x hy)
      rw [happend]
      refine ⟨[n] ++ ns, .next hn hns, fun c hc => ?_, fun d hx hp => ?_⟩
      · have hc' := (hadd c).addSimple (pseudoElement?_of_nil hc)
        rw [List.singleton_append, List.foldlM_cons, hc']
        refine (hfold (addSubclass c x) hc).trans ?_
        rw [addSubclass, List.append_assoc]
        rfl
      · have hn := hd d (hx x List.mem_cons_self)
        have hns := hds d (fun y hy => hx y (List.mem_cons_of_mem x hy)) hp
        rw [List.singleton_append, Node.nestingOfAll_cons]
        exact Nat.max_le.2 ⟨hn, hns⟩

theorem writes_type {v : String} (hv : WritableName v) (hw : encoded.TypeName (some v) w)
    (hk : Stops k) :
    Writes .typeSelector typeName Flat v w k := by
  cases hw with
  | universal =>
      have huniversal : Rule.universal.run (['*'] ++ k) = some (k, [⟨.universal, '*' :: k, k, []⟩]) :=
        (run_exactly_node rfl rfl).2 ⟨rfl, rfl⟩
      have hbody : (body .typeSelector).run Rule.run (['*'] ++ k) = some (k, [⟨.universal, '*' :: k, k, []⟩]) :=
        run_choice_eq_some.2 (Or.inl huniversal)
      exact ⟨_, (Rule.run_node rfl).2 ⟨_, hbody, rfl⟩, rfl, rfl, fun d _ => Nat.zero_le d⟩
  | @element v w hw =>
      obtain rfl : w = escaped v := hw
      obtain ⟨n, hn, hr, hf, hd⟩ := writes_ident hv hk
      have huniversal : Rule.universal.run (escaped v ++ k) = none := by
        obtain ⟨r, hr⟩ := escaped_cons hv k
        rw [hr]
        exact run_begins_none (r := .universal) rfl rfl r
      have hbody : (body .typeSelector).run Rule.run (escaped v ++ k) = some (k, [n]) :=
        run_choice_eq_some.2 (Or.inr ⟨huniversal, hn⟩)
      refine ⟨_, (Rule.run_node rfl).2 ⟨_, hbody, rfl⟩, rfl, ?_, fun d _ => ?_⟩
      · rw [typeName]
        simp only [Rule.isToken, Bool.false_eq_true, if_false, List.head?_cons, hr]
        exact hf
      · have hn0 := hd 0 trivial
        rw [Node.nesting_plain rfl]
        simp only [Rule.isToken, Bool.false_eq_true, if_false, Node.nestingOfAll_cons, Node.nestingOfAll_nil]
        omega

theorem plus_of_iterates {e : Expression} (he : e.takes = true) (hs : s ≠ [])
    (h : Iterates (e.run Rule.run) (s ++ k) k ns) :
    (plus e).run Rule.run (s ++ k) = some (k, ns) := by
  refine (run_plus_eq_some Rule.lawful_run he).2 ⟨h, ?_⟩
  generalize hx : s ++ k = x at h
  cases h with
  | stop => exact absurd (List.append_left_eq_self.1 hx) hs
  | next hn => exact ⟨_, hn⟩

theorem within_of_brackets {d : Nat} (h : c.BracketsWithin d) :
    (∀ x ∈ c.subclasses, subclassWithin d x) ∧ ∀ t ∈ c.pseudos, pseudoWithin t.value d := by
  constructor
  · intro x hx
    rcases x with v | v | a | p
    · exact trivial
    · exact trivial
    · exact h.attributes a hx
    · exact h.parameters p (List.mem_append_left _ (List.mem_filterMap.2 ⟨_, hx, rfl⟩))
  · intro t ht
    exact h.parameters t.value (List.mem_append_right _ (List.mem_map_of_mem ht))

theorem elements_writable (hc : c.Writable) : ∀ p, .pseudoElement p ∈ c.pseudos → p.Writable := by
  intro p hp
  rcases hc.pseudos with h | ⟨q, h, hq⟩
  · rw [h] at hp
    cases hp
  · rw [h, List.mem_singleton] at hp
    cases hp
    exact hq

theorem typeless_head (hc : c.Writable) (ht : c.type = none)
    (hs : Concat encoded.Subclass c.subclasses s)
    (he : encoded.Element c.pseudos e) : ∃ x r, s ++ e = x :: r ∧ x ∈ marks := by
  rcases simple_head hs he with ⟨-, hx, he⟩ | h
  · rcases hc.nonempty with hn | hn | hn
    · exact absurd ht hn
    · exact absurd hx hn
    · exact absurd he hn
  · exact h

/-- The nodes of the parts of a compound make up the node of it. -/
theorem writes_compound_of (hrun : (body .compoundSelector).run Rule.run (w ++ k) = some (k, ns))
    (hread : ns.foldlM addSimple .empty = .ok c) (hd : ∀ d, c.BracketsWithin d → Node.nestingOfAll ns ≤ d) :
    Writes .compoundSelector compound (fun d => c.BracketsWithin d) c w k := by
  refine ⟨_, (Rule.run_node rfl).2 ⟨ns, hrun, rfl⟩, rfl, hread, fun d hwithin => ?_⟩
  rw [Node.nesting_plain rfl]
  exact hd d hwithin

theorem writes_compound (hc : c.Writable) (hw : encoded.Compound c w) (hk : Follows k) :
    Writes .compoundSelector compound (fun d => c.BracketsWithin d) c w k := by
  cases hw with
  | @mk t s e ht hs he =>
      have hapart := apart_simple hs he hk
      obtain ⟨ns, hns, hfold, hds⟩ := iterates_simple hc.subclasses (elements_writable hc) hs he hk
      have happend : t ++ (s ++ e) ++ k = t ++ (s ++ (e ++ k)) := by simp
      have hwithin (d : Nat) (h : c.BracketsWithin d) : Node.nestingOfAll ns ≤ d :=
        hds d (within_of_brackets h).1 (within_of_brackets h).2
      cases htype : c.type with
      | some v =>
          rw [htype] at ht
          obtain ⟨n, hn, hr, hf, hd⟩ := writes_type (hc.type v htype) ht hapart.stops
          have hstar := (run_star_eq_some Rule.lawful_run (e := simpleSelector) rfl).2 hns
          have hrun : (body .compoundSelector).run Rule.run (t ++ (s ++ e) ++ k) = some (k, [n] ++ ns) := by
            rw [happend]
            exact run_choice_eq_some.2 (Or.inl (run_seq_eq_some.2 ⟨_, [n], ns, hn, hstar, rfl⟩))
          refine writes_compound_of hrun ?_ fun d h => ?_
          · have hadd : addSimple .empty n = .ok { CompoundSelector.empty with type := some v } :=
              (Adds.type hr hf).addSimple rfl
            rw [List.singleton_append, List.foldlM_cons, hadd]
            refine (hfold _ rfl).trans ?_
            rw [CompoundSelector.empty, List.nil_append, ← htype]
          · rw [List.singleton_append, Node.nestingOfAll_cons]
            exact Nat.max_le.2 ⟨hd d trivial, hwithin d h⟩
      | none =>
          rw [htype] at ht
          cases ht
          obtain ⟨d, r, hr, hd⟩ := typeless_head hc htype hs he
          have hne : s ++ e ≠ [] := by
            rw [hr]
            exact List.cons_ne_nil d r
          have htypeless : Rule.typeSelector.run (s ++ e ++ k) = none := by
            rw [hr]
            exact run_type_mark hd _
          refine writes_compound_of ?_ ?_ hwithin
          · rw [List.nil_append]
            refine run_choice_eq_some.2 (Or.inr ⟨run_seq_eq_none.2 (Or.inl htypeless), plus_of_iterates rfl hne ?_⟩)
            rwa [List.append_assoc]
          · refine (hfold .empty rfl).trans ?_
            rw [CompoundSelector.empty, List.nil_append, ← htype]

/-- What a written compound begins with. -/
def beginnings : List Char := ['\\', '*'] ++ marks

theorem compound_head (hc : c.Writable) (hw : encoded.Compound c w) :
    ∃ x r, w = x :: r ∧ x ∈ beginnings := by
  cases hw with
  | @mk t s e ht hs he =>
      cases htype : c.type with
      | none =>
          rw [htype] at ht
          cases ht
          obtain ⟨x, r, hx, hmem⟩ := typeless_head hc htype hs he
          exact ⟨x, r, hx, List.mem_append_right _ hmem⟩
      | some v =>
          have hv := hc.type v htype
          rw [htype] at ht
          cases ht with
          | universal => exact ⟨'*', _, rfl, by decide⟩
          | element hw =>
              obtain rfl : t = escaped v := hw
              obtain ⟨r, hr⟩ := escaped_cons hv (s ++ e)
              exact ⟨'\\', r, hr, by decide⟩

end SelectorSyntax.Selector.Spelling
