import SelectorSyntax.Proofs.Completion.Numbers
import SelectorSyntax.Proofs.Spelling.WrittenArguments

namespace SelectorSyntax.Selector

namespace Parameter

mutual

/-- In no list of the parameter a slash stands in front of an asterisk: nothing that begins like a comment was
read as delimiters. -/
def Clear : Parameter → Prop
  | text _ => True
  | list ps => ¬ [text "/", text "*"] <:+: ps ∧ ClearAll ps

def ClearAll : List Parameter → Prop
  | [] => True
  | p :: ps => p.Clear ∧ ClearAll ps

end

variable {p : Parameter} {ps qs : List Parameter}

theorem clearAll_append : ClearAll (ps ++ qs) ↔ ClearAll ps ∧ ClearAll qs := by
  induction ps with
  | nil => simp [ClearAll]
  | cons p ps ih => rw [List.cons_append, ClearAll, ClearAll, ih, and_assoc]

theorem Clear.append (h : (list (ps ++ qs)).Clear) : (list ps).Clear ∧ (list qs).Clear := by
  obtain ⟨hn, hps, hqs⟩ := h.imp_right clearAll_append.1
  exact ⟨⟨fun hi => hn (hi.trans (List.prefix_append ps qs).isInfix), hps⟩,
    ⟨fun hi => hn (hi.trans (List.suffix_append ps qs).isInfix), hqs⟩⟩

theorem Clear.cons (h : (list (p :: ps)).Clear) : p.Clear ∧ (list ps).Clear := by
  refine ⟨?_, (Clear.append (show (list ([p] ++ ps)).Clear from h)).2⟩
  rw [Clear, ClearAll] at h
  exact h.2.1

end Parameter

end SelectorSyntax.Selector

namespace SelectorSyntax.Bracket

open Grammar Grammar.Expression Selector Selector.OfNodes Selector.Spelling Text CharClass

variable {c o : Char} {r q : Rule} {s t u v : List Char} {n : Node} {ns ms : List Node} {p : Parameter}
  {ps : List Parameter}

/-- From one place to a later one the text has its brackets in pairs, whatever is put behind it. -/
def Firm (s t : List Char) : Prop := ∀ k, ∃ ps, Balanced (s ++ k) (t ++ k) ps

theorem Firm.refl (s : List Char) : Firm s s := fun _ => ⟨[], .nil⟩

theorem Firm.trans (h : Firm s t) (h' : Firm t u) : Firm s u := by
  intro k
  obtain ⟨ps, hps⟩ := h k
  obtain ⟨qs, hqs⟩ := h' k
  exact ⟨_, hps.trans hqs⟩

theorem Firm.enclose (ho : isOpener o = true) (hc : openerOf? c = some o) (h : Firm s (c :: t)) : Firm (o :: s) t := by
  intro k
  obtain ⟨ps, hps⟩ := h k
  exact ⟨_, Balanced.enclose ho hc hps⟩

theorem Smooth.firm (h : Smooth s t) : Firm s t := by
  obtain ⟨w, rfl, hw⟩ := h
  intro k
  rw [List.append_assoc]
  exact ⟨[], hw (t ++ k)⟩

theorem firm_skip (s : List Char) : Firm s (Blank.skip s) := (flat_ws.maybe (Blank.run_maybe_ws s)).firm

/-! Items. The only one that depends on what follows is a slash. -/

/-- What follows does not make a comment of a slash. -/
def Starless (t : List Char) : Prop := ∃ c r, t = c :: r ∧ c ≠ '*'

theorem firm_string (h : Rule.string.run s = some (t, ns)) : Firm s t := by
  obtain ⟨w, rfl⟩ := Rule.lawful_run.suffix h
  intro k
  obtain ⟨ms, hm⟩ := run_string_replace (s := w) (u := []) h (t ++ k)
  rw [List.append_assoc]
  exact ⟨[], .of_unit (unit?_quoted hm)⟩

theorem firm_delim (hs : c = '/' → Starless t) (hc : isDelimiter c = true) : Firm (c :: t) t := by
  intro k
  rw [isDelimiter, Bool.not_eq_true', Bool.or_eq_false_iff] at hc
  have hplain : isPlain c = true := isPlain_of_not_mem (of_decide_eq_false hc.1)
  have hcomment : Blank.comment? (c :: (t ++ k)) = none := by
    by_cases hslash : c = '/'
    · obtain ⟨d, r, rfl, hd⟩ := hs hslash
      unfold Blank.comment?
      split
      next heq =>
        cases heq
        exact absurd rfl hd
      next => rfl
    · exact comment?_eq_none hslash
  refine ⟨[], .of_unit ?_⟩
  rw [List.cons_append, unit?_plain hplain, hcomment, Option.getD_none]

/-- An optional argument is firm if no unclosed comment has been read in it. -/
def FirmArgument (s : List Char) : Prop :=
  ∀ ⦃t ns ps⦄, (maybe (call .argument)).run Rule.run s = some (t, ns) → ReadAs ns ps → (Parameter.list ps).Clear →
    t ≠ [] → Firm s t

theorem readAs_of_groupItems {m : Node} (h : groupItems (ns ++ [m]) = .ok ps)
    (hns : (maybe (call .argument)).run Rule.run s = some (t, ns)) : ∃ qs rs, ReadAs ns qs ∧ ps = qs ++ rs := by
  rcases run_maybe_eq_some.1 hns with hns | ⟨-, -, rfl⟩
  · obtain ⟨⟨q, u, v, ks⟩, rfl, hq, -, -, hmatch⟩ := Rule.isMatch_of_run (r := .argument) rfl hns
    obtain rfl : q = .argument := hq
    obtain ⟨qs, rs, -, rfl, ⟨-, hqs⟩ | ⟨hq, -⟩⟩ := groupItems_cons_eq_ok h
    · exact ⟨qs, rs, .argument (fun k hk => (hmatch.child hk).2) hqs, rfl⟩
    · simp at hq
  · exact ⟨[], ps, .nothing, rfl⟩

theorem firm_group (hb : body q = exactly c) (hr : q.isSilent = false)
    (ho : isOpener o = true) (hc : openerOf? c = some o)
    (ih : ∀ v, v.length < s.length → FirmArgument v)
    (h : (group o q).run Rule.run s = some (t, ns)) (hps : groupItems ns = .ok ps)
    (hclear : (Parameter.list ps).Clear) : Firm s t := by
  obtain ⟨s', u, ms, rfl, hm, hu, rfl⟩ := (run_group_eq_some hb hr).1 h
  obtain ⟨qs, rs, hread, rfl⟩ := readAs_of_groupItems hps hm
  have hne : u ≠ [] := by
    rintro rfl
    rw [Blank.skip_nil] at hu
    cases hu
  have hlt : (Blank.skip s').length < (o :: s').length := Nat.lt_succ_of_le (Blank.skip_suffix s').length_le
  have hargument := ih _ hlt hm hread hclear.append.1 hne
  refine .enclose ho hc ((firm_skip s').trans (hargument.trans ?_))
  rw [← hu]
  exact firm_skip u

theorem firm_argGroup (ih : ∀ v, v.length < s.length → FirmArgument v)
    (h : Rule.argGroup.run s = some (t, [n])) (hp : item n = .ok p) (hclear : p.Clear) : Firm s t := by
  obtain ⟨ms, hm, hn⟩ := (Rule.run_node rfl).1 h
  obtain rfl : n = ⟨.argGroup, s, t, ms⟩ := (List.cons.inj hn).1
  obtain ⟨hr, -⟩ | ⟨hr, -⟩ | ⟨-, ps, hps, rfl⟩ := item_eq_ok hp
  · simp at hr
  · cases hr
  · rcases run_choice_eq_some.1 hm with hm | ⟨-, hm⟩
    · exact firm_group (q := .parenClose) rfl rfl rfl rfl ih hm hps hclear.cons.2
    · exact firm_group (q := .bracketClose) rfl rfl rfl rfl ih hm hps hclear.cons.2

theorem firm_item (ih : ∀ v, v.length < s.length → FirmArgument v)
    (h : argItem.run Rule.run s = some (t, [n])) (hp : item n = .ok p) (hclear : p.Clear)
    (hs : p = .text "/" → Starless t) : Firm s t := by
  obtain ⟨e, he, h⟩ := run_choices_some h
  simp only [List.mem_cons, List.not_mem_nil, or_false] at he
  have hflat {r : Rule} (hr : r.isToken = true) (hd : r ≠ .argDelim) (hq : r ≠ .string) (h : r.run s = some (t, [n])) :
      Firm s t := by
    obtain ⟨ms, hm, -⟩ := Rule.run_eq_some.1 h
    exact (Flat.body hr hd hq hm).firm
  rcases he with rfl | rfl | rfl | rfl | rfl
  · exact firm_string h
  · exact hflat (r := .number) rfl (by decide) (by decide) h
  · exact hflat (r := .ident) rfl (by decide) (by decide) h
  · exact firm_argGroup ih h hp hclear
  · obtain ⟨c, hc, rfl, hn⟩ := run_argDelim_eq_some.1 h
    obtain rfl : n = ⟨.argDelim, c :: t, t, []⟩ := (List.cons.inj hn).1
    refine firm_delim (fun hslash => hs ?_) hc
    subst hslash
    rw [item] at hp
    cases hp
    exact congrArg (fun w => Parameter.text (String.ofList w)) (Place.between_append ['/'] t)

/-! Arguments. -/

theorem items_append_eq_ok (h : items (ns ++ ms) = .ok ps) :
    ∃ qs rs, items ns = .ok qs ∧ items ms = .ok rs ∧ ps = qs ++ rs := by
  induction ns generalizing ps with
  | nil => exact ⟨[], ps, rfl, h, rfl⟩
  | cons n ns ih =>
      obtain ⟨q, ps, hq, hps, rfl⟩ := items_cons_eq_ok h
      obtain ⟨qs, rs, hqs, hrs, rfl⟩ := ih hps
      exact ⟨q :: qs, rs, items_cons_of_ok hq hqs, hrs, rfl⟩

theorem single_of_argItem (h : argItem.run Rule.run s = some (t, ns)) : ∃ n, ns = [n] := by
  obtain ⟨e, he, h⟩ := run_choices_some h
  simp only [List.mem_cons, List.not_mem_nil, or_false] at he
  rcases he with rfl | rfl | rfl | rfl | rfl <;>
  · obtain ⟨n, hn, -⟩ := Rule.isMatch_of_run rfl h
    exact ⟨n, hn⟩

/-- An asterisk where an item may follow is one. -/
theorem run_round_asterisk (s : List Char) :
    round.run Rule.run ('*' :: s) = some (s, [⟨.argDelim, '*' :: s, s, []⟩]) := by
  have hspace : Rule.argSpace.run ('*' :: s) = none := run_argSpace_none.2 (settled_of_head rfl (by decide) s)
  have hdelim : Rule.argDelim.run ('*' :: s) = some (s, [⟨.argDelim, '*' :: s, s, []⟩]) :=
    run_argDelim_eq_some.2 ⟨'*', rfl, rfl, rfl⟩
  have hitem : argItem.run Rule.run ('*' :: s) = some (s, [⟨.argDelim, '*' :: s, s, []⟩]) := by
    refine run_choices_of [call .string, call .number, call .ident, call .argGroup] ?_ hdelim
    simp only [List.mem_cons, List.not_mem_nil, or_false, forall_eq_or_imp, forall_eq]
    exact ⟨run_string_none rfl s, run_begins_none rfl rfl s, run_begins_none rfl rfl s, run_argGroup_none (by decide) s⟩
  exact run_seq_eq_some.2 ⟨'*' :: s, [], _, run_maybe_eq_some.2 (Or.inr ⟨hspace, rfl, rfl⟩), hitem, rfl⟩

theorem starless_of_rounds (h : Iterates (round.run Rule.run) s t ns) (hps : items ns = .ok ps) (ht : t ≠ [])
    (hstar : ∀ qs, ps ≠ .text "*" :: qs) : Starless s := by
  have hne : s ≠ [] := by
    rintro rfl
    exact ht (List.suffix_nil.1 (h.suffix fun h => run_suffix Rule.lawful_run round h))
  obtain ⟨c, r, rfl⟩ := List.exists_cons_of_ne_nil hne
  refine ⟨c, r, rfl, ?_⟩
  rintro rfl
  have hround := run_round_asterisk r
  cases h with
  | stop hn => cases hn.symm.trans hround
  | next hs _ =>
      cases hs.symm.trans hround
      obtain ⟨q, qs, hq, -, rfl⟩ := items_cons_eq_ok hps
      rw [item] at hq
      cases hq
      exact hstar qs (congrArg (fun w => Parameter.text (String.ofList w) :: qs) (Place.between_append ['*'] r))

/-- An item and the rounds behind it. -/
theorem firm_item_rounds (ih : ∀ v, v.length < s.length → FirmArgument v)
    (h : argItem.run Rule.run s = some (u, [n])) (hi : Iterates (round.run Rule.run) u t ns) (hp : item n = .ok p)
    (hps : items ns = .ok ps) (hclear : (Parameter.list (p :: ps)).Clear) (ht : t ≠ []) : Firm s u := by
  refine firm_item ih h hp hclear.cons.1 fun hslash => starless_of_rounds hi hps ht fun qs hqs => ?_
  subst hslash hqs
  exact hclear.1 ⟨[], qs, rfl⟩

theorem firm_rounds (ih : ∀ v, v.length < s.length → FirmArgument v) (h : Iterates (round.run Rule.run) s t ns)
    (hps : items ns = .ok ps) (hclear : (Parameter.list ps).Clear) (ht : t ≠ []) : Firm s t := by
  induction h generalizing ps with
  | stop => exact .refl _
  | @next s u t ns ms hs hi ihi =>
      obtain ⟨v, ks, ls, hv, hitem, rfl⟩ := run_seq_eq_some.1 hs
      obtain ⟨n, rfl⟩ := single_of_argItem hitem
      rw [List.append_assoc] at hps
      obtain ⟨qs, _, -, hitems, rfl⟩ := items_append_eq_ok hps
      obtain ⟨p, rs, hp, hrs, rfl⟩ := items_cons_eq_ok hitems
      have hlt := (run_suffix Rule.lawful_run (maybe (call .argSpace)) hv).length_le
      have hshort := run_shorter Rule.lawful_run argItem rfl hitem
      have hspace : Firm s v := by
        rcases run_maybe_eq_some.1 hv with hv | ⟨-, rfl, -⟩
        · obtain ⟨ms, hm, -⟩ := Rule.run_eq_some.1 hv
          exact (flat_ws hm).firm
        · exact .refl _
      have hfirm := firm_item_rounds (fun w hw => ih w (by omega)) hitem hi hp hrs hclear.append.2 ht
      exact hspace.trans (hfirm.trans (ihi (fun w hw => ih w (by omega)) hrs hclear.append.2.cons.2 ht))

/-- An argument in which no unclosed comment has been read is firm. -/
theorem firm_argument (s : List Char) : FirmArgument s := by
  induction hn : s.length using Nat.strongRecOn generalizing s with
  | ind n ih =>
      have ih (v : List Char) (hv : v.length < s.length) : FirmArgument v := ih v.length (hn ▸ hv) v rfl
      intro t ns ps h hread hclear ht
      rcases run_maybe_eq_some.1 h with h | ⟨-, rfl, -⟩
      · obtain ⟨ms, hm, rfl⟩ := (Rule.run_node rfl).1 h
        obtain ⟨u, ks, ls, hitem, hrest, rfl⟩ := run_seq_eq_some.1 hm
        obtain ⟨m, rfl⟩ := single_of_argItem hitem
        have hi := (run_star_eq_some Rule.lawful_run rfl).1 hrest
        cases hread with
        | argument _ hps =>
            obtain ⟨p, qs, hp, hqs, rfl⟩ := items_cons_eq_ok hps
            have hshort := run_shorter Rule.lawful_run argItem rfl hitem
            have hrounds := firm_rounds (fun v hv => ih v (by omega)) hi hqs hclear.cons.2 ht
            exact (firm_item_rounds ih hitem hi hp hqs hclear ht).trans hrounds
      · exact .refl _

/-! What stands between the parentheses of a pseudo-class or pseudo-element. -/

theorem readAs_of_argumentItems {m : Node} (h : argumentItems ⟨r, u, v, ns ++ [m]⟩ = .ok ps) (hm : m.rule ≠ .argument)
    (hns : (maybe (call .argument)).run Rule.run s = some (t, ns)) : ReadAs ns ps := by
  rcases run_maybe_eq_some.1 hns with hns | ⟨-, -, rfl⟩
  · obtain ⟨⟨q, x, y, ks⟩, rfl, hq, -, -, hmatch⟩ := Rule.isMatch_of_run (r := .argument) rfl hns
    obtain rfl : q = .argument := hq
    exact .argument (fun k hk => (hmatch.child hk).2) (argumentItems_some.symm.trans h)
  · cases h.symm.trans (argumentItems_none hm)
    exact .nothing

theorem consumes_arguments_of_clear {name : String} {v : Parameter} (hn : n.IsMatch) (hr : n.rule = .arguments)
    (hv : pseudoParameter name n = .ok v) (hclear : v.Clear) (k : List Char) :
    (call .arguments).Consumes (n.start ++ k) (n.stop ++ k) := by
  obtain ⟨r, s, t, ns⟩ := n
  obtain rfl : r = .arguments := hr
  obtain ⟨ms, hm, hch⟩ := hn.body
  obtain ⟨x, u, ks, rfl, hargument, hu, rfl⟩ := (run_group_eq_some rfl rfl).1 hm
  obtain rfl : ns = ks ++ [⟨.parenClose, ')' :: t, t, []⟩] := hch
  have hb : ∃ ps, Balanced (x ++ k) (')' :: (t ++ k)) ps := by
    rcases pseudoParameter_eq_ok hv with ⟨⟨⟩, -⟩ | ⟨-, ⟨-, hv⟩ | ⟨-, ps, hps, rfl⟩⟩
    · obtain ⟨m, -, hrun, -⟩ := escapedNthParameter_eq_ok hv
      obtain ⟨b₁, y, b₂, hb₁, hy, hb₂, htext⟩ := consumes_nthArguments.1 ⟨_, hrun⟩
      have hstart := hn.text_append
      rw [htext] at hstart
      obtain rfl : b₁ ++ (y ++ (b₂ ++ [')'])) ++ t = x := (List.cons.inj hstart).2
      refine ⟨[], ?_⟩
      simp only [List.append_assoc, List.cons_append, List.nil_append]
      exact (balanced_blanks hb₁ _).trans ((balanced_simple hy.simple _).trans (balanced_blanks hb₂ _))
    · have hread := readAs_of_argumentItems hps (by simp) hargument
      have hne : u ≠ [] := by
        rintro rfl
        rw [Blank.skip_nil] at hu
        cases hu
      have hfirm := (firm_skip x).trans ((firm_argument _ hargument hread hclear hne).trans (firm_skip u))
      rw [hu] at hfirm
      exact hfirm k
  obtain ⟨ps, hb⟩ := hb
  obtain ⟨ks, hrun⟩ := run_arguments_of_balanced hb
  exact ⟨_, hrun⟩

end SelectorSyntax.Bracket
