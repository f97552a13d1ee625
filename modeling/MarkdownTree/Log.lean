import MarkdownTree.Diagnostic

/-!
# Logs

What the stages say while they work. A record comes from one of a tree of loggers; a diagnostic that is logged reads as
its line in a report, whatever the format of the other records.
-/

namespace MarkdownTree

/-- How important a record is. -/
inductive LogLevel where
  | debug
  | info
  | warning
  | error
deriving DecidableEq, Repr

namespace LogLevel

/-- Levels as numbers. -/
def rank : LogLevel → Int
  | debug => 10
  | info => 20
  | warning => 30
  | error => 40

/-- The name of a level in records. -/
def name : LogLevel → String
  | debug => "DEBUG"
  | info => "INFO"
  | warning => "WARNING"
  | error => "ERROR"

/-- The threshold that a name stands for; unknown names stand for that of `info`. -/
def threshold (name : String) : Int :=
  match name.map Char.toUpper with
  | "DEBUG" => 10
  | "WARNING" | "WARN" => 30
  | "ERROR" => 40
  | "CRITICAL" | "FATAL" => 50
  | "NOTSET" => 0
  | _ => 20

/-- The level of a diagnostic of the given severity. -/
def ofSeverity : Severity → LogLevel
  | .info => info
  | .warning => warning
  | .error => error

end LogLevel

/-- Who says something: each part of a run has a logger of its own, all of them below one. -/
inductive Logger where
  | root
  | blocks
  | scanner
  | printer
  | files
  | plugin
  | registry
  | processor
  | purity
  | builtins
  | diagnostics
deriving DecidableEq, Repr

/-- The name of a logger in records: a path from the one above all. -/
def Logger.name : Logger → String
  | root => "markpipe"
  | blocks => "markpipe.parser.block"
  | scanner => "markpipe.parser.scanner"
  | printer => "markpipe.printer.markdown"
  | files => "markpipe.vfile"
  | plugin => "markpipe.pipeline.plugin"
  | registry => "markpipe.pipeline.registry"
  | processor => "markpipe.pipeline.processor"
  | purity => "markpipe.pipeline.purity"
  | builtins => "markpipe.plugins.builtin"
  | diagnostics => "markpipe.diagnostics"

/-- Something that a stage says. -/
structure LogRecord where
  level : LogLevel
  logger : Logger
  text : String
  /-- The record is a diagnostic and reads as its text alone. -/
  bare : Bool := false
deriving DecidableEq, Repr

namespace LogRecord

/-- The text of a record; with a time, it also tells the time and the logger. -/
def render (time : Option String) (r : LogRecord) : String :=
  if r.bare then r.text
  else
    match time with
    | some time => "[" ++ time ++ "] [" ++ r.level.name ++ "] [" ++ r.logger.name ++ "] " ++ r.text
    | none => r.level.name ++ ": " ++ r.text

/-- The record passes a threshold; a threshold of zero leaves the choice to the outermost one, that of warnings. -/
def passes (threshold : Int) (r : LogRecord) : Bool :=
  (if threshold = 0 then LogLevel.warning.rank else threshold) ≤ r.level.rank

/-- The lines that records are written as: those that pass, each with a line feed after it. -/
def lines (time : Option String) (threshold : Int) (rs : List LogRecord) : List String :=
  String.splitOn (String.join ((rs.filter (passes threshold)).map fun r => r.render time ++ "\n")) "\n"

/-- The record of a diagnostic. -/
def ofDiagnostic (d : Diagnostic) : LogRecord :=
  { level := .ofSeverity d.severity, logger := .diagnostics, text := d.line, bare := true }

/-- The record that a diagnostic leaves when a file takes it. -/
def ofRecorded (d : Diagnostic) : LogRecord :=
  { level := .debug, logger := .files, text := (if d.fatal then "Fatal: " else "") ++ d.line }

/-- The warning that a log file cannot be written, whatever its path. -/
def noFile : LogRecord :=
  { level := .warning, logger := .root, text := "Could not create log file <path>" }

/-- The records of all diagnostics of a file. -/
def ofFile (f : File) : List LogRecord :=
  f.messages.map ofDiagnostic

end LogRecord

/-- Where a log goes. -/
inductive LogFile where
  | none
  | writable
  | unwritable
deriving DecidableEq, Repr

/-- What of a log is written, how, and where besides the console. -/
structure LogSetup where
  threshold : Int
  trace : Bool := false
  file : LogFile := .none
deriving DecidableEq, Repr

namespace LogSetup

/-- The number of places that the log goes to. -/
def targets (s : LogSetup) : Nat :=
  if s.file = .writable then 2 else 1

/-- The lines that a log is written as; they begin with a warning where the log file cannot be written. -/
def lines (s : LogSetup) (time : String) (rs : List LogRecord) : List String :=
  let rs := if s.file = .unwritable then .noFile :: rs else rs
  LogRecord.lines (if s.trace then some time else .none) s.threshold rs

end LogSetup

end MarkdownTree
