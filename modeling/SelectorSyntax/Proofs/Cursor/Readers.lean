import SelectorSyntax.Bracket
import SelectorSyntax.Proofs.Cursor.Basic
import SelectorSyntax.Text.Reader

/-! The readers as programs over byte offsets, step by step: what they look at, what they take of the text and what
they add to the cursor. -/

namespace SelectorSyntax.Text.Cursor

open CharClass Place

variable (limit : Nat) (input : List Char)

def isValidEscape (offset : Nat) : Run Bool :=
  if peek input offset = some '\\' then do
    let next ← add limit offset 1
    return (peek input next).any (!isNewline ·)
  else return false

/-! Whitespace and comments. -/

/-- How many bytes lie before the first `*/`. -/
def findClose : List Char → Option Nat
  | '*' :: '/' :: _ => some 0
  | c :: s => (findClose s).map (c.utf8Size + ·)
  | [] => none

/-- The offset behind the closed comment at `offset`. -/
def comment? (offset : Nat) : Run (Option Nat) :=
  match dropBytes? input offset with
  | some ('/' :: '*' :: body) =>
    match findClose body with
    | some size => do
      let inside ← add limit offset 2
      let close ← add limit inside size
      let next ← add limit close 2
      return some next
    | none => return none
  | _ => return none

/-- It is looked for at a slash only. -/
def commentAt? (c : Char) (offset : Nat) : Run (Option Nat) :=
  if c = '/' then comment? limit input offset else return none

def blankRound (cursor : Nat) : Run (Turn Nat Nat) :=
  match peek input cursor with
  | none => return .done cursor
  | some c =>
    if isWhitespace c then return .again (← add limit cursor c.utf8Size)
    else do
      match ← commentAt? limit input c cursor with
      | some next => return .again next
      | none => return .done cursor

def skipBlank (offset : Nat) : Run Nat := loop (blankRound limit input) offset

/-! Escapes, identifiers and quoted text. -/

/-- Behind the whitespace that ends the digits of an escape. -/
def dropTerminator (offset : Nat) : Run Nat := do
  let behind ← slice input offset
  if ['\r', '\n'] <+: behind then add limit offset 2
  else match peek input offset with
    | none => return offset
    | some c => if isWhitespace c then add limit offset c.utf8Size else return offset

def escape (offset : Nat) : Run (Reader.Answer Char) := do
  let cursor ← add limit offset 1
  match peek input cursor with
  | none => return .error (.invalidEscape offset)
  | some c =>
    if isNewline c then return .error (.invalidEscape offset)
    else if isHexDigit c then do
      let behind ← slice input cursor
      let digits := (behind.takeWhile isHexDigit).take Escape.maxDigits
      let next ← dropTerminator limit input (← add limit cursor (byteSize digits))
      return .ok (Escape.ofCode (Escape.value digits), next)
    else return .ok (c, ← add limit cursor c.utf8Size)

/-- What has been read so far and where to go on. -/
structure Progress where
  value : List Char
  cursor : Nat

/-- A character is put behind the value and passed. -/
def Progress.push (p : Progress) (c : Char) : Run Progress :=
  return ⟨p.value ++ [c], ← add limit p.cursor c.utf8Size⟩

/-- So is the character of an escape. -/
def Progress.pushEscape (p : Progress) : Run (Except LexicalError Progress) := do
  match ← escape limit input p.cursor with
  | .error e => return .error e
  | .ok (d, next) => return .ok ⟨p.value ++ [d], next⟩

/-- The first character of an identifier at `offset` behind its dash, if it has one. -/
def identifierFirst (offset : Nat) (p : Progress) : Run (Except LexicalError Progress) :=
  match peek input p.cursor with
  | none => return .error (.expectedIdentifier offset)
  | some c =>
    if c = '\\' then p.pushEscape limit input
    else if isIdentStart c then return .ok (← p.push limit c)
    else return .error (.expectedIdentifier offset)

/-- Behind two dashes no first character is asked for. -/
def identifierHead (offset : Nat) : Run (Except LexicalError Progress) := do
  let front ← slice input offset
  if ['-', '-'] <+: front then return .ok ⟨['-', '-'], ← add limit offset 2⟩
  else if peek input offset = some '-' then
    identifierFirst limit input offset (← Progress.push limit ⟨[], offset⟩ '-')
  else identifierFirst limit input offset ⟨[], offset⟩

def identifierRound (p : Progress) : Run (Turn Progress (Reader.Answer (List Char))) :=
  match peek input p.cursor with
  | none => return .done (.ok (p.value, p.cursor))
  | some c =>
    if c = '\\' then do
      match ← p.pushEscape limit input with
      | .error e => return .done (.error e)
      | .ok p' => return .again p'
    else if isIdentChar c then return .again (← p.push limit c)
    else return .done (.ok (p.value, p.cursor))

/-- The rest of an identifier whose head has been read. -/
def identifierTail : Except LexicalError Progress → Run (Reader.Answer (List Char))
  | .error e => return .error e
  | .ok p => loop (identifierRound limit input) p

def identifier (offset : Nat) : Run (Reader.Answer (List Char)) := do
  identifierTail limit input (← identifierHead limit input offset)

/-- A round at a backslash in a text that is quoted from `offset` on: the text goes on in the next line, or an escape
is read. -/
def backslashRound (offset : Nat) (p : Progress) : Run (Turn Progress (Reader.Answer (List Char))) := do
  let next ← add limit p.cursor 1
  let behind ← slice input next
  if ['\r', '\n'] <+: behind then return .again { p with cursor := ← add limit p.cursor 3 }
  else match peek input next with
    | none => return .done (.error (.unterminatedString offset))
    | some c =>
      if isNewline c then return .again { p with cursor := ← add limit p.cursor (1 + c.utf8Size) }
      else match ← p.pushEscape limit input with
        | .error e => return .done (.error e)
        | .ok p' => return .again p'

def quotedRound (offset : Nat) (q : Char) (p : Progress) : Run (Turn Progress (Reader.Answer (List Char))) :=
  match peek input p.cursor with
  | none => return .done (.error (.unterminatedString offset))
  | some c =>
    if c = q then return .done (.ok (p.value, ← add limit p.cursor 1))
    else if isNewline c then return .done (.error (.unterminatedString offset))
    else if c = '\\' then backslashRound limit input offset p
    else return .again (← p.push limit c)

def quoted (offset : Nat) : Run (Reader.Answer (List Char)) :=
  match peek input offset with
  | none => return .error (.unterminatedString offset)
  | some q =>
    if isQuote q then do loop (quotedRound limit input offset q) ⟨[], ← add limit offset 1⟩
    else return .error (.unterminatedString offset)

/-! Brackets. -/

/-- Offsets and characters of the brackets, the last first, and where to go on. -/
structure Scanned where
  opened : List (Nat × Char)
  strays : List (Nat × Char)
  cursor : Nat

namespace Scanned

def report (st : Scanned) : Bracket.Report := ⟨st.opened.reverse, st.strays.reverse⟩

/-- A closer takes the last opener away if that is of its kind. -/
def close (st : Scanned) (opener c : Char) : Scanned :=
  match st.opened with
  | o :: os => if o.2 = opener then { st with opened := os } else { st with strays := (st.cursor, c) :: st.strays }
  | [] => { st with strays := (st.cursor, c) :: st.strays }

/-- What a character comes to that is not hidden; none if it opens a bracket too many. -/
def meet? (st : Scanned) (maxDepth : Nat) (c : Char) : Option Scanned :=
  if Bracket.isOpener c then
    if maxDepth ≤ st.opened.length then none else some { st with opened := (st.cursor, c) :: st.opened }
  else match Bracket.openerOf? c with
    | some o => some (st.close o c)
    | none => some st

/-- The character is passed. -/
def pass (st : Scanned) (c : Char) : Run Scanned := return { st with cursor := ← add limit st.cursor c.utf8Size }

end Scanned

def scanRound (maxDepth : Nat) (st : Scanned) : Run (Turn Scanned (Except LexicalError Bracket.Report)) :=
  match peek input st.cursor with
  | none => return .done (.ok st.report)
  | some c =>
    if c = '\\' then do
      let next ← add limit st.cursor 1
      match peek input next with
      | none => return .again { st with cursor := next }
      | some d => return .again (← Scanned.pass limit { st with cursor := next } d)
    else if isQuote c then do
      match ← quoted limit input st.cursor with
      | .error _ => return .done (.ok st.report)
      | .ok (_, next) => return .again { st with cursor := next }
    else do
      match ← commentAt? limit input c st.cursor with
      | some next => return .again { st with cursor := next }
      | none =>
        match st.meet? maxDepth c with
        | none => return .done (.error (.nestingTooDeep st.cursor maxDepth))
        | some st' => return .again (← st'.pass limit c)

def scan (maxDepth : Nat) : Run (Except LexicalError Bracket.Report) :=
  loop (scanRound limit input maxDepth) ⟨[], [], 0⟩

end SelectorSyntax.Text.Cursor
