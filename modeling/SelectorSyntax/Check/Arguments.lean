import SelectorSyntax.Parse
namespace SelectorSyntax.Check

/-- Options that take a value. -/
inductive ValueOption
  | startRule
  | maxDepth
deriving DecidableEq, Repr

namespace ValueOption

def flag : ValueOption → String
  | startRule => "--start-rule"
  | maxDepth => "--max-depth"

def ofFlag? (s : String) : Option ValueOption := [startRule, maxDepth].find? fun o => o.flag = s

/-- The option as it is shown to the user. -/
def usage : ValueOption → String
  | startRule => "--start-rule <START_RULE>"
  | maxDepth => "--max-depth <MAX_DEPTH>"

end ValueOption

def verboseFlag : String := "--verbose"

inductive ArgumentError
  | unexpectedArgument (argument : String)
  | unexpectedValue (value option : String)
  | missingValue (option : ValueOption)
  | repeated (option : String)
  | invalidValue (value : String) (option : ValueOption) (reason : String)

namespace ArgumentError

def message : ArgumentError → String
  | unexpectedArgument a => "unexpected argument '" ++ a ++ "' found"
  | unexpectedValue v o => "unexpected value '" ++ v ++ "' for '" ++ o ++ "' found; no more were expected"
  | missingValue o => "a value is required for '" ++ o.usage ++ "' but none was supplied"
  | repeated o => "the argument '" ++ o ++ "' cannot be used multiple times"
  | invalidValue v o r => "invalid value '" ++ v ++ "' for '" ++ o.usage ++ "': " ++ r

end ArgumentError

inductive NumberFault
  | empty
  | badDigit
  | tooLarge
deriving DecidableEq, Repr

def NumberFault.message : NumberFault → String
  | empty => "cannot parse integer from empty string"
  | badDigit => "invalid digit found in string"
  | tooLarge => "number too large to fit in target type"

def maxNumber : Nat := UInt64.size - 1

/-- Takes the digits one by one, so the first fault from the left counts. -/
def readDigits (n : Nat) : List Char → Except NumberFault Nat
  | [] => .ok n
  | c :: s =>
    if !c.isDigit then .error .badDigit
    else
      let m := 10 * n + (c.toNat - 48)
      if maxNumber < m then .error .tooLarge else readDigits m s

/-- Digits with or without a plus sign before them. -/
def readNumber : List Char → Except NumberFault Nat
  | [] => .error .empty
  | ['+'] => .error .badDigit
  | '+' :: s => readDigits 0 s
  | s => readDigits 0 s

structure Arguments where
  selectors : List String
  startRule : Option StartRule
  maxDepth : Option Nat
  verbose : Bool

namespace Arguments

def none : Arguments := ⟨[], .none, .none, false⟩

def options (a : Arguments) : ParseOptions :=
  ⟨a.startRule.getD .selectors, a.maxDepth.getD defaultMaxDepth⟩

abbrev Result := Except ArgumentError Arguments

def addSelector (a : Arguments) (s : String) : Arguments := { a with selectors := a.selectors ++ [s] }

def setVerbose (a : Arguments) : Result :=
  if a.verbose then .error (.repeated verboseFlag) else .ok { a with verbose := true }

/-- An option that stands twice is refused before its second value is looked at. -/
def setValue (a : Arguments) (o : ValueOption) (v : String) : Result :=
  match o with
  | .startRule =>
    if a.startRule.isSome then .error (.repeated o.usage)
    else match StartRule.ofName? v with
      | some r => .ok { a with startRule := some r }
      | .none => .error (.invalidValue v o (StartRule.unknownMessage v))
  | .maxDepth =>
    if a.maxDepth.isSome then .error (.repeated o.usage)
    else match readNumber v.toList with
      | .ok n => .ok { a with maxDepth := some n }
      | .error f => .error (.invalidValue v o f.message)

/-- An option whose value is a separate argument, which may not have come yet. -/
abbrev Pending := Option (ValueOption × Option String)

/-- The value of a separate argument is taken up when the next argument is understood. -/
def settle (a : Arguments) : Pending → Result
  | .none => .ok a
  | some (o, .none) => .error (.missingValue o)
  | some (o, some v) => a.setValue o v

def setFlags (a : Arguments) : List Char → Result
  | [] => .ok a
  | c :: s => if c = 'v' then a.setVerbose.bind fun b => b.setFlags s
    else .error (.unexpectedArgument (String.ofList ['-', c]))

/-- A group of one-letter flags. Flags that are not known are refused before anything else is. -/
def readFlags (a : Arguments) (p : Pending) (flags : List Char) : Result :=
  match flags with
  | 'v' :: _ => (a.settle p).bind fun b => b.setFlags flags
  | _ => a.setFlags flags

/-- An option written in full, with its value behind an equals sign or without. -/
def readOption (a : Arguments) (p : Pending) (flag : String) (value : Option String) :
    Except ArgumentError (Arguments × Pending) :=
  if flag = verboseFlag then
    match value with
    | some v => .error (.unexpectedValue v verboseFlag)
    | .none => do
      let b ← a.settle p
      let c ← b.setVerbose
      pure (c, .none)
  else match ValueOption.ofFlag? flag with
    | .none => .error (.unexpectedArgument flag)
    | some o => do
      let b ← a.settle p
      match value with
      | .none => pure (b, some (o, .none))
      | some v =>
        let c ← b.setValue o v
        pure (c, .none)

/-- The two sides of the first equals sign. -/
def splitValue (s : String) : String × Option String :=
  match s.toList.span (· ≠ '=') with
  | (flag, _ :: value) => (String.ofList flag, some (String.ofList value))
  | (flag, []) => (String.ofList flag, .none)

def readFrom (a : Arguments) (p : Pending) : List String → Result
  | [] => a.settle p
  | arg :: rest =>
    match arg.toList with
    | ['-', '-'] => (a.settle p).map fun b => rest.foldl addSelector b
    | '-' :: '-' :: _ =>
      let (flag, value) := splitValue arg
      (a.readOption p flag value).bind fun (b, q) => b.readFrom q rest
    | '-' :: c :: flags => (a.readFlags p (c :: flags)).bind fun b => b.readFrom .none rest
    | _ =>
      match p with
      | some (o, .none) => a.readFrom (some (o, some arg)) rest
      | _ => (a.settle p).bind fun b => (b.addSelector arg).readFrom .none rest

/-- Reads the arguments of the command from left to right. -/
def read (args : List String) : Result := none.readFrom .none args

end Arguments

end SelectorSyntax.Check
