import SelectorSyntax.Text.Blank
import SelectorSyntax.Text.LexicalError
import SelectorSyntax.Text.Quoted
namespace SelectorSyntax.Bracket

open Text CharClass

/-- A bracket of the text and what is left of the text there. -/
structure Mark where
  bracket : Char
  place : List Char

def isOpener (c : Char) : Bool := c = '(' || c = '['

def openerOf? : Char → Option Char
  | ')' => some '('
  | ']' => some '['
  | _ => none

/-- Brackets that wait for their closer, the innermost first, and closers that met no opener of
their kind, the last first. -/
structure State where
  opened : List Mark
  strays : List Mark

/-- A closer takes away the innermost opener if the two are of one kind; otherwise it changes
nothing but is remembered. -/
def State.close (st : State) (opener : Char) (m : Mark) : State :=
  match st.opened with
  | o :: os => if o.bracket = opener then { st with opened := os } else { st with strays := m :: st.strays }
  | [] => { st with strays := m :: st.strays }

/-- Any character outside quoted text, comments and escapes; `none` if it opens a bracket more than
may be open. -/
def State.step? (maxDepth : Nat) (st : State) (m : Mark) : Option State :=
  if isOpener m.bracket then
    if maxDepth ≤ st.opened.length then none else some { st with opened := m :: st.opened }
  else match openerOf? m.bracket with
    | some o => some (st.close o m)
    | none => some st

/-- Follows the brackets to the end of the text or to a quote that never closes, behind which nothing
can be told. The error is the place of the opener that was one too many. -/
def walk (maxDepth : Nat) (st : State) (s : List Char) : Except (List Char) State :=
  match s with
  | [] => .ok st
  | c :: r =>
    if c = '\\' then walk maxDepth st r.tail
    else if isQuote c then
      match _h : Quoted.readBody c r with
      | none => .ok st
      | some (_, t) => walk maxDepth st t
    else match _h : Blank.comment? (c :: r) with
      | some t => walk maxDepth st t
      | none =>
        match st.step? maxDepth ⟨c, c :: r⟩ with
        | none => .error (c :: r)
        | some st' => walk maxDepth st' r
termination_by s.length
decreasing_by
  · exact Nat.lt_succ_of_le (List.length_tail ▸ Nat.sub_le _ _)
  · exact Nat.lt_succ_of_lt (Quoted.readBody_length _h)
  · exact Blank.comment?_length _h
  · exact Nat.lt_succ_self _

/-- Offsets and characters: openers left open, outermost first, and closers without an opener, in
the order of the text. -/
structure Report where
  unclosed : List (Nat × Char)
  stray : List (Nat × Char)
deriving DecidableEq, Repr

namespace Report

def isBalanced (r : Report) : Bool := r.unclosed.isEmpty && r.stray.isEmpty

def isStray (r : Report) (offset : Nat) : Bool := r.stray.any fun m => m.1 = offset

def empty : Report := ⟨[], []⟩

end Report

def Mark.locate (text : List Char) (m : Mark) : Nat × Char := (Place.offsetOf text m.place, m.bracket)

def scan (text : List Char) (maxDepth : Nat) : Except LexicalError Report :=
  match walk maxDepth ⟨[], []⟩ text with
  | .error p => .error (.nestingTooDeep (Place.offsetOf text p) maxDepth)
  | .ok st => .ok ⟨(st.opened.map (Mark.locate text)).reverse, (st.strays.map (Mark.locate text)).reverse⟩

end SelectorSyntax.Bracket
