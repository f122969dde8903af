import SelectorSyntax.Check.Arguments
import SelectorSyntax.Log
import SelectorSyntax.Output.OfSelector
import SelectorSyntax.Unicode.WhiteSpace
namespace SelectorSyntax.Check

open Diagnostic Output

/-- What is written to the error stream: `usage` says that the arguments were not understood and
`failure` that the command as a whole failed. -/
inductive Notice
  | log (record : LogRecord)
  | report (error : SyntaxError)
  | usage (message : String)
  | failure (message : String)

structure Outcome where
  exitCode : Nat
  output : String
  notices : List Notice

/-- Lines end at a line feed, together with a carriage return right before it. -/
def splitLines (s : List Char) : List (List Char) :=
  match s with
  | [] => []
  | c :: r => go [] (c :: r)
where
  go (before : List Char) : List Char → List (List Char)
    | [] => [before.reverse]
    | ['\n'] => [dropReturn before]
    | '\n' :: d :: s => dropReturn before :: go [] (d :: s)
    | c :: s => go (c :: before) s
  dropReturn : List Char → List Char
    | '\r' :: before => before.reverse
    | before => before.reverse

def isBlankLine (s : List Char) : Bool := s.all Unicode.isWhiteSpace

/-- The selectors of a standard input: its lines, but for the blank ones. -/
def inputLines (s : String) : List String := ((splitLines s.toList).filter (!isBlankLine ·)).map String.ofList

/-- The outcome of one selector. -/
structure Verdict where
  accepted : Bool
  output : String
  notices : List Notice

def check (options : ParseOptions) (verbose : Bool) (input : String) : Verdict :=
  let result := parseWith input options
  let logged := if verbose then (Log.ofParse input options result).map .log else []
  match result with
  | .ok p => ⟨true, (Outline.ofContent p).block 0 ++ "\n", logged⟩
  | .error e => ⟨false, "", logged ++ [.report e]⟩

def summary (failed total : Nat) : LogRecord :=
  ⟨.info, "checked selectors", [("failed", toString failed), ("total", toString total)]⟩

def checkAll (options : ParseOptions) (verbose : Bool) (inputs : List String) : Outcome :=
  let verdicts := inputs.map (check options verbose)
  let failed := (verdicts.filter (!·.accepted)).length
  let total := inputs.length
  { exitCode := if failed = 0 then 0 else 1
    output := String.join (verdicts.map (·.output))
    notices := verdicts.flatMap (·.notices) ++ [.log (summary failed total)] ++
      if failed = 0 then [] else [.failure s!"{failed} of {total} selectors failed to parse"] }

/-- Standard input counts only when the arguments name no selector. -/
def readsInput (args : List String) : Bool :=
  match Arguments.read args with
  | .ok a => a.selectors.isEmpty
  | .error _ => false

/-- Input that is not a text is refused as a whole. -/
def run (args : List String) (input : ByteArray) : Outcome :=
  match Arguments.read args with
  | .error e => ⟨2, "", [.usage e.message]⟩
  | .ok a =>
    if a.selectors.isEmpty then
      match String.fromUTF8? input with
      | none => ⟨1, "", [.failure "failed to read selectors from stdin"]⟩
      | some s => checkAll a.options a.verbose (inputLines s)
    else checkAll a.options a.verbose a.selectors

/-- The first word tells a misuse of the command from a failure of its work. -/
def Notice.text : Notice → String
  | log r => r.line
  | report e => e.code ++ "\n  " ++ e.message ++ (match e.help with
    | some h => "\n  help: " ++ h
    | none => "")
  | usage m => "error: " ++ m
  | failure m => "Error: " ++ m

end SelectorSyntax.Check
