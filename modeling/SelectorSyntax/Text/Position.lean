import SelectorSyntax.Text.Place
namespace SelectorSyntax.Text

structure Position where
  offset : Nat
  line : Nat
  column : Nat
deriving DecidableEq, Repr

namespace Position

open Place

/-- Line and column behind the characters, both counted from one. A line feed ends a line, and so
does a carriage return together with the line feed after it; columns count characters. -/
def count : Nat × Nat → List Char → Nat × Nat
  | lc, [] => lc
  | (l, _), '\r' :: '\n' :: s => count (l + 1, 1) s
  | (l, c), d :: s => if d = '\n' then count (l + 1, 1) s else count (l, c + 1) s

/-- Offsets beyond the end stand for the end. Inside a character no line is counted: the column is
that of the character on a single line. -/
def ofOffset (text : List Char) (offset : Nat) : Position :=
  let o := min offset (byteSize text)
  let before := takeBytes text o
  let (line, column) := if (dropBytes? text o).isSome then count (1, 1) before else (1, before.length + 1)
  ⟨o, line, column⟩

end Position

structure Location where
  start : Position
  stop : Position
deriving DecidableEq, Repr

namespace Location

open Place

def ofOffsets (text : List Char) (start stop : Nat) : Location :=
  ⟨.ofOffset text start, .ofOffset text (max stop start)⟩

/-- The character at the offset, or nothing where none starts. -/
def ofChar (text : List Char) (offset : Nat) : Location :=
  ofOffsets text offset (offset + byteSize ((restAt text offset).take 1))

/-- Offset and width of what a marker points at. A marker needs some width, so at the end of the
text it points at the last byte. -/
def span (l : Location) (size : Nat) : Nat × Nat :=
  let start := l.start.offset
  let width := l.stop.offset - start
  if 0 < width then (start, width)
  else if size ≤ start ∧ 0 < start then (start - 1, 1)
  else (start, 0)

end Location

end SelectorSyntax.Text
