import SelectorSyntax.Proofs.Spelling.Layout

namespace SelectorSyntax.Selector

open Text Grammar

namespace Parameter

mutual

/-- The texts of a parameter in their order, those of its lists included. -/
def leaves : Parameter → List String
  | text v => [v]
  | list ps => leavesOfAll ps

def leavesOfAll : List Parameter → List String
  | [] => []
  | p :: ps => p.leaves ++ leavesOfAll ps

end

variable {ps qs : List Parameter}

theorem leavesOfAll_append : leavesOfAll (ps ++ qs) = leavesOfAll ps ++ leavesOfAll qs := by
  induction ps with
  | nil => rfl
  | cons p ps ih => rw [List.cons_append, leavesOfAll, leavesOfAll, ih, List.append_assoc]

end Parameter

namespace Spelling

/-- Texts one after another from one place to a later one. A space stands for blanks, blanks may stand inside the
brackets of a group, and any other text is all that the first rule for tokens that matches there matches. -/
inductive Spread : List String → List Char → List Char → Prop
  | nil {s} : Spread [] s s
  | gap {b ls s t} : Blanks b → b ≠ [] → Spread ls s t → Spread (" " :: ls) (b ++ s) t
  | opener {o b ls s t} : o ∈ ['(', '['] → Blanks b → Spread ls s t → Spread (String.ofList [o] :: ls) (o :: (b ++ s)) t
  | closer {c b ls s t} : c ∈ [')', ']'] → Blanks b → Spread ls s t → Spread (String.ofList [c] :: ls) (b ++ c :: s) t
  | token {r w ls s t} : Tokenizes r (w ++ s) s → Spread ls s t → Spread (String.ofList w :: ls) (w ++ s) t

variable {ls ks : List String} {s t u : List Char}

theorem Spread.append (h : Spread ls s u) (h' : Spread ks u t) : Spread (ls ++ ks) s t := by
  induction h with
  | nil => exact h'
  | gap hb hne _ ih => exact .gap hb hne (ih h')
  | opener ho hb _ ih => exact .opener ho hb (ih h')
  | closer hc hb _ ih => exact .closer hc hb (ih h')
  | token hr _ ih => exact .token hr (ih h')

mutual

theorem ItemAt.spread : ∀ {p s t}, ItemAt p s t → Spread p.leaves s t
  | _, _, _, .token hr _ => .token hr .nil
  | _, _, _, @ItemAt.group o c ps b₁ s b₂ t hoc hb₁ hps hb₂ => by
      obtain ⟨ho, hc⟩ : o ∈ ['(', '['] ∧ c ∈ [')', ']'] := by
        rcases pair_cases hoc with ⟨rfl, rfl⟩ | ⟨rfl, rfl⟩ <;> simp
      rw [Parameter.leaves, Parameter.leavesOfAll, Parameter.leavesOfAll_append]
      exact .opener ho hb₁ (hps.spread.append (.closer hc hb₂ .nil))

theorem ItemsAt.spread : ∀ {ps s t}, ItemsAt ps s t → Spread (Parameter.leavesOfAll ps) s t
  | _, _, _, .nil => .nil
  | _, _, _, .cons hp hps => hp.spread.append hps.spread

theorem MoreAt.spread : ∀ {ps s t}, MoreAt ps s t → Spread (Parameter.leavesOfAll ps) s t
  | _, _, _, .nil => .nil
  | _, _, _, .adjacent hp hps => hp.spread.append hps.spread
  | _, _, _, .spaced hb hne hp hps => .gap hb hne (hp.spread.append hps.spread)

end

end Spelling

end SelectorSyntax.Selector

namespace SelectorSyntax

open Selector

/-- A text is the texts of what it is read as, one after another, with blanks for each space, around the whole and
inside the brackets of groups, and nothing else. -/
theorem parseTextFragment_spreads {t : List Char} {d : Nat} {v : Parameter} (h : parseTextFragment t d = .ok v) :
    ∃ b₁ s b₂, Blanks b₁ ∧ Blanks b₂ ∧ t = b₁ ++ s ∧ Spelling.Spread v.leaves s b₂ := by
  obtain ⟨ps, hps, rfl⟩ := Spelling.itemsOf_parse h
  obtain ⟨b₁, s, b₂, hb₁, hb₂, ht, hitems⟩ := Spelling.itemsAt_of_itemsOf hps
  exact ⟨b₁, s, b₂, hb₁, hb₂, ht, hitems.spread⟩

/-- Comments around a group and in it. -/
theorem parseTextFragment_spreads_group :
    parseTextFragment "/**/a [ b/*c*/,1 ] ".toList 1 = .ok (.list
        [.text "a", .text " ", .list [.text "[", .text "b", .text " ", .text ",", .text "1", .text "]"]]) ∧
      ∃ b₁ s b₂, Blanks b₁ ∧ Blanks b₂ ∧ "/**/a [ b/*c*/,1 ] ".toList = b₁ ++ s ∧
        Spelling.Spread ["a", " ", "[", "b", " ", ",", "1", "]"] s b₂ := by
  have h : parseTextFragment "/**/a [ b/*c*/,1 ] ".toList 1 = .ok (.list
      [.text "a", .text " ", .list [.text "[", .text "b", .text " ", .text ",", .text "1", .text "]"]]) := by cbv
  exact ⟨h, parseTextFragment_spreads h⟩

end SelectorSyntax
