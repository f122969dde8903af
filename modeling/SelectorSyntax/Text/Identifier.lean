import SelectorSyntax.Text.Escape
namespace SelectorSyntax.Text.Identifier

open CharClass

/-- Why no identifier could be read, and what was left of the text there. -/
inductive Fault
  | missing (place : List Char)
  | badEscape (place : List Char)

abbrev Reading := Except Fault (List Char × List Char)

def Reading.prepend (v : List Char) (x : Reading) : Reading := x.map fun (w, t) => (v ++ w, t)

/-- The characters after the first: as many as there are, escapes resolved. -/
def readTail (s : List Char) : Reading :=
  match s with
  | [] => .ok ([], [])
  | c :: r =>
    if c = '\\' then
      match _h : Escape.read r with
      | none => .error (.badEscape (c :: r))
      | some (d, t) => (readTail t).prepend [d]
    else if isIdentChar c then (readTail r).prepend [c]
    else .ok ([], c :: r)
termination_by s.length
decreasing_by
  · exact Nat.lt_succ_of_lt (Escape.read_length _h)
  · exact Nat.lt_succ_self _

/-- An identifier that starts at `whole`, whose dashes have been read. -/
def readHead (whole : List Char) : List Char → Reading
  | [] => .error (.missing whole)
  | c :: r =>
    if c = '\\' then
      match Escape.read r with
      | none => .error (.badEscape (c :: r))
      | some (d, t) => (readTail t).prepend [d]
    else if isIdentStart c then (readTail r).prepend [c]
    else .error (.missing whole)

/-- Reads the longest identifier at the front of the text. -/
def read (s : List Char) : Reading :=
  match s with
  | '-' :: '-' :: r => (readTail r).prepend ['-', '-']
  | '-' :: r => (readHead s r).prepend ['-']
  | r => readHead s r

/-- The value of a text that is one identifier and nothing else. -/
def decode (s : List Char) : Except Fault (List Char) :=
  match read s with
  | .error e => .error e
  | .ok (v, []) => .ok v
  | .ok (_, c :: r) => .error (.missing (c :: r))

end SelectorSyntax.Text.Identifier
