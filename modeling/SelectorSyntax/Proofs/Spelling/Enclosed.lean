import SelectorSyntax.Proofs.Assembly.Depth
import SelectorSyntax.Proofs.Grammar.Beginnings
import SelectorSyntax.Proofs.Spelling.Arguments

namespace SelectorSyntax.Selector.Spelling

open Grammar Expression Text OfNodes CharClass

variable {e f : Expression} {k s t u : List Char} {ns : List Node}

/-! What is matched at the end of a text is matched in front of a closing bracket too. -/

/-- A closing bracket, or nothing. -/
def Closing (k : List Char) : Prop := ∀ c r, k = c :: r → c = ')' ∨ c = ']'

theorem Closing.ends (hk : Closing k) : Escape.Ends k := by
  rintro c r rfl
  rcases hk c r rfl with rfl | rfl
  · exact Escape.Ends.cons rfl rfl _ r rfl
  · exact Escape.Ends.cons rfl rfl _ r rfl

/-- What neither bracket meets is not met where they stand. -/
theorem Closing.run_char (hk : Closing k) {p : Char → Bool} (hp : p ')' = false ∧ p ']' = false) :
    (char p).run Rule.run k = none := by
  refine run_char_eq_none.2 fun c r h => ?_
  rcases hk c r h with rfl | rfl
  · exact hp.1
  · exact hp.2

/-- An expression makes no difference between the end of a text and what follows it, wherever it is tried. -/
def Steady (e : Expression) (k s : List Char) : Prop :=
  ∀ t, t <:+ s → e.run Rule.run (t ++ k) = (e.run Rule.run t).map fun x => (x.1 ++ k, x.2)

theorem Steady.empty : Steady .empty k s := fun _ _ => rfl

theorem Steady.char (hk : Closing k) {p : Char → Bool} (hp : p ')' = false ∧ p ']' = false) :
    Steady (.char p) k s := by
  intro t _
  cases t with
  | nil => exact hk.run_char hp
  | cons c t =>
      rw [List.cons_append, run_char_cons, run_char_cons]
      split <;> rfl

theorem Steady.seq (he : Steady e k s) (hf : Steady f k s) : Steady (.seq e f) k s := by
  intro t ht
  rw [run_seq, run_seq, he t ht]
  cases h : e.run Rule.run t with
  | none => rfl
  | some x =>
      have hx := hf x.1 ((run_suffix Rule.lawful_run e h).trans ht)
      simp only [Option.map_some]
      rw [hx, Option.map_map, Option.map_map]
      rfl

theorem Steady.choice (he : Steady e k s) (hf : Steady f k s) : Steady (.choice e f) k s := by
  intro t ht
  rw [run_choice, run_choice, he t ht]
  cases e.run Rule.run t with
  | none => exact hf t ht
  | some x => rfl

theorem Steady.absent (he : Steady e k s) : Steady (.absent e) k s := by
  intro t ht
  rw [run_absent, run_absent, he t ht]
  cases e.run Rule.run t with
  | none => rfl
  | some x => rfl

theorem Steady.star (ht : e.takes = true) (he : Steady e k s) : Steady (.star e) k s := by
  intro t hts
  obtain ⟨u, ns, hi⟩ := exists_iterates Rule.lawful_run ht t
  rw [(run_star_eq_some Rule.lawful_run ht).2 hi]
  refine (run_star_eq_some Rule.lawful_run ht).2 ?_
  induction hi with
  | @stop t ht => exact .stop (by rw [he t hts, ht]; rfl)
  | @next t u v ns ms hu _ ih =>
      have hut : u <:+ s := (run_suffix Rule.lawful_run e hu).trans hts
      exact .next (by rw [he t hts, hu]; rfl) (ih hut)

theorem Steady.plus (ht : e.takes = true) (he : Steady e k s) :
    Steady (plus e) k s := he.seq (he.star ht)

theorem Steady.maybe (he : Steady e k s) : Steady (maybe e) k s := he.choice .empty

theorem Steady.seqs {es : List Expression} (h : ∀ e ∈ es, Steady e k s) : Steady (seqs es) k s := by
  induction es with
  | nil => exact .empty
  | cons e es ih =>
      cases es with
      | nil => exact h e List.mem_cons_self
      | cons f es => exact (h e List.mem_cons_self).seq (ih fun g hg => h g (List.mem_cons_of_mem e hg))

theorem Steady.caseless (hk : Closing k) {w : String}
    (hw : w.toList.all (fun c => !sameLetter c ')' && !sameLetter c ']') = true) :
    Steady (caseless w) k s := by
  refine Steady.seqs fun e he => ?_
  obtain ⟨c, hc, rfl⟩ := List.mem_map.1 he
  exact .char hk (by simpa using List.all_eq_true.1 hw c hc)

/-- A backslash at the end of a text is the one thing in a name that makes a difference. -/
theorem run_nmchar_closing (hk : Closing k) (hs : s ≠ ['\\']) :
    nmchar.run Rule.run (s ++ k) = (nmchar.run Rule.run s).map fun x => (x.1 ++ k, x.2) := by
  cases s with
  | nil =>
      rw [List.nil_append, Identifier.run_nmchar_nil]
      cases k with
      | nil => exact Identifier.run_nmchar_nil
      | cons d r =>
          rcases hk d r rfl with rfl | rfl <;>
          · rw [Identifier.run_nmchar_cons, if_neg (by decide), if_neg (by decide)]
            rfl
  | cons c s =>
      rw [List.cons_append, Identifier.run_nmchar_cons, Identifier.run_nmchar_cons]
      by_cases hb : c = '\\'
      · have hne : s ≠ [] := by
          rintro rfl
          exact hs (by rw [hb])
        rw [if_pos hb, if_pos hb, Escape.read_append_of_ne_nil hne hk.ends, Option.map_map, Option.map_map]
        rfl
      · rw [if_neg hb, if_neg hb]
        split <;> rfl

theorem steady_nmchar (hk : Closing k) (hs : '\\' ∉ s) : Steady nmchar k s := by
  intro t ht
  refine run_nmchar_closing hk ?_
  rintro rfl
  exact hs (ht.mem (by simp))

/-- The digits of a number, which its unit follows. -/
def magnitude : Expression :=
  choice (seqs [star digit, exactly '.', plus digit]) (plus digit)

theorem steady_magnitude (hk : Closing k) : Steady (seq (maybe sign) magnitude) k s := by
  have hdigit : Steady digit k s := .char hk (by decide)
  refine (Steady.char hk (by decide)).maybe.seq (Steady.choice ?_ (hdigit.plus rfl))
  exact (hdigit.star rfl).seq ((Steady.char hk (by decide)).seq (hdigit.plus rfl))

theorem run_number_eq_some : Rule.number.run s = some (t, ns) ↔
    ∃ u, (seq (maybe sign) magnitude).run Rule.run s = some (u, []) ∧ Iterates (nmchar.run Rule.run) u t [] ∧
      ns = [⟨.number, s, t, []⟩] := by
  rw [Rule.run_node rfl]
  change (∃ ms, (seq (maybe sign) (seq magnitude (star nmchar))).run Rule.run s = some (t, ms) ∧
    ns = [⟨.number, s, t, []⟩]) ↔ _
  constructor
  · rintro ⟨ms, hm, rfl⟩
    obtain ⟨u, ms₁, ks, h₁, h₂, -⟩ := run_seq_eq_some.1 hm
    obtain ⟨v, ms₂, ms₃, h₂, h₃, -⟩ := run_seq_eq_some.1 h₂
    obtain rfl : ms₁ = [] := run_callFree rfl h₁
    obtain rfl : ms₂ = [] := run_callFree rfl h₂
    obtain rfl : ms₃ = [] := run_callFree rfl h₃
    exact ⟨v, run_seq_eq_some.2 ⟨u, [], [], h₁, h₂, rfl⟩, (run_star_eq_some Rule.lawful_run rfl).1 h₃, rfl⟩
  · rintro ⟨v, h, hi, rfl⟩
    obtain ⟨u, ms₁, ms₂, h₁, h₂, hms⟩ := run_seq_eq_some.1 h
    obtain ⟨rfl, rfl⟩ := List.append_eq_nil_iff.1 hms.symm
    have h₃ := (run_star_eq_some Rule.lawful_run rfl).2 hi
    exact ⟨[], run_seq_eq_some.2 ⟨u, [], [], h₁, run_seq_eq_some.2 ⟨v, [], [], h₂, h₃, rfl⟩, rfl⟩, rfl⟩

/-! Blanks, where no comment begins in the text. -/

def Uncommented (s : List Char) : Prop := ¬ ['/', '*'] <:+: s

theorem Uncommented.suffix (hs : Uncommented s) (ht : t <:+ s) :
    Uncommented t := fun h => hs (h.trans ht.isInfix)

theorem comment?_closing (hk : Closing k) (hs : Uncommented s) : Blank.comment? (s ++ k) = none := by
  unfold Blank.comment?
  split
  next u heq =>
    rcases s with _ | ⟨c, _ | ⟨d, s⟩⟩
    · rcases hk '/' ('*' :: u) heq with h | h <;> cases h
    · cases heq
      rcases hk '*' u rfl with h | h <;> cases h
    · cases heq
      exact absurd ⟨[], s, rfl⟩ hs
  next => rfl

theorem settled_closing (hk : Closing k) (hs : Uncommented s) (h : Blank.Settled s) : Blank.Settled (s ++ k) := by
  refine ⟨comment?_closing hk hs, fun c r hc => ?_⟩
  cases s with
  | nil => rcases hk c r hc with rfl | rfl <;> rfl
  | cons d s =>
      obtain rfl : d = c := (List.cons.inj hc).1
      exact h.whitespace d s rfl

end SelectorSyntax.Selector.Spelling
