import SelectorSyntax.Parse
namespace SelectorSyntax

open Diagnostic

inductive LogLevel
  | debug
  | info
deriving DecidableEq, Repr

def LogLevel.name : LogLevel → String
  | .debug => "DEBUG"
  | .info => "INFO"

/-- Four letters, so that the messages of a log stand in one column. -/
def LogLevel.tag : LogLevel → String
  | .debug => "DEBG"
  | .info => "INFO"

structure LogRecord where
  level : LogLevel
  message : String
  fields : List (String × String)
deriving DecidableEq, Repr

def LogRecord.line (r : LogRecord) : String :=
  String.intercalate ", " ((r.level.tag ++ " " ++ r.message) :: r.fields.map fun f => f.1 ++ ": " ++ f.2)

namespace Log

def started (input : String) (options : ParseOptions) : LogRecord :=
  { level := .debug
    message := match options.startRule with
      | .selectors => "parsing selectors"
      | .text => "parsing text"
    fields :=
      [("max_depth", toString options.maxDepth), ("bytes", toString (Text.Place.byteSize input.toList)),
        ("start_rule", options.startRule.name)] }

def succeeded (rule : StartRule) : Parsed → LogRecord
  | .selectors l =>
    ⟨.debug, "parsed selectors", [("complex_selectors", toString l.length), ("start_rule", rule.name)]⟩
  | .text p =>
    ⟨.debug, "parsed text", [("tokens", toString (p.asList?.getD []).length), ("start_rule", rule.name)]⟩

def failed (rule : StartRule) (e : SyntaxError) : LogRecord :=
  let p := e.location.start
  ⟨.debug, "syntax error",
    [("column", toString p.column), ("line", toString p.line), ("offset", toString p.offset),
      ("kind", e.kind.code), ("start_rule", rule.name)]⟩

/-- What parsing an input has to tell. -/
def ofParse (input : String) (options : ParseOptions) (result : Except SyntaxError Parsed) : List LogRecord :=
  [started input options,
    match result with
    | .ok p => succeeded options.startRule p
    | .error e => failed options.startRule e]

end Log

end SelectorSyntax
