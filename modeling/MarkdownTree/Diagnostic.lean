import MarkdownTree.Data
import MarkdownTree.Position
import MarkdownTree.Source

/-!
# Files and diagnostics

A file carries a document through a run: its content, the notes of plugins and the diagnostics that the stages record.
Diagnostics are only ever added.
-/

namespace MarkdownTree

/-- How grave a diagnostic is. -/
inductive Severity where
  | info
  | warning
  | error
deriving DecidableEq, Repr, Inhabited

namespace Severity

/-- Severities as numbers, the gravest the largest. -/
def rank : Severity → Nat
  | info => 0
  | warning => 1
  | error => 2

/-- The name of a severity in reports. -/
def label : Severity → String
  | info => "info"
  | warning => "warning"
  | error => "error"

/-- The severity that a value stands for, which has to be its number. -/
def ofValue (v : Value) : Except Fault Severity :=
  match [info, warning, error].find? fun s => (Value.int s.rank).same v with
  | some s => .ok s
  | none => .error (.value (.severity v))

end Severity

/-- A message about a file. -/
structure Diagnostic where
  text : String
  severity : Severity := .warning
  position : Option Position := none
  rule : Option String := none
  source : Option String := none
  fatal : Bool := false
  path : Option String := none
deriving DecidableEq, Repr, Inhabited

/-- A name that says something: it is there and not empty. -/
def named? (name : Option String) : Option String :=
  name.filter fun s => !s.isEmpty

/-- A file's path as reports show it. -/
def pathText (path : Option String) : String :=
  (named? path).getD "<input>"

namespace Diagnostic

/-- The source of the diagnostics that reading leaves. -/
def scannerSource : String :=
  "markpipe-scanner"

/-- The source of the diagnostics that a run leaves by itself. -/
def runSource : String :=
  "markpipe"

/-- The rule and the source of a diagnostic as reports show them. -/
def origin (d : Diagnostic) : String :=
  match named? d.rule, named? d.source with
  | some rule, some source => " [" ++ source ++ ":" ++ rule ++ "]"
  | some name, none | none, some name => " [" ++ name ++ "]"
  | none, none => ""

/-- The line of a report about a diagnostic. -/
def line (d : Diagnostic) : String :=
  let place := match d.position with
    | some p => ":" ++ toString p.start.line ++ ":" ++ toString p.start.column
    | none => ""
  pathText d.path ++ place ++ ": " ++ d.severity.label ++ ": " ++ d.text ++ d.origin

/-- The order of a report: what has no position comes first, and the rest goes by offset. -/
def before (c d : Diagnostic) : Bool :=
  match c.position, d.position with
  | none, _ => true
  | some _, none => false
  | some p, some q => p.start.offset ≤ q.start.offset

end Diagnostic

/-- A document on its way through a run. -/
structure File where
  source : Source
  path : Option String := none
  encoding : Text.Encoding := .utf8
  result : Option String := none
  data : DataMap := .empty
  messages : List Diagnostic := []
deriving Repr, Inhabited

namespace File

/-- The text that the file shows. -/
def text (f : File) : Source :=
  f.source.shown f.encoding

/-- The file as messages show it. -/
def literal (f : File) : String :=
  let path := match f.path with
    | some p => Text.quote p
    | none => "None"
  "VFile(path=" ++ path ++ ", messages=" ++ toString f.messages.length ++ ")"

/-- Some stage gave up on the file. -/
def hasFailed (f : File) : Bool :=
  f.messages.any Diagnostic.fatal

/-- A diagnostic with the path of the file. -/
def label (f : File) (d : Diagnostic) : Diagnostic :=
  { d with path := f.path }

/-- The file with one more diagnostic. -/
def record (f : File) (d : Diagnostic) : File :=
  { f with messages := f.messages ++ [f.label d] }

/-- The diagnostics of at least the given severity. -/
def messagesAtLeast (f : File) (s : Severity) : List Diagnostic :=
  f.messages.filter fun d => s.rank ≤ d.severity.rank

/-- The diagnostics of at least the given severity, one per line. -/
def report (f : File) (s : Severity) : String :=
  "\n".intercalate (((f.messagesAtLeast s).mergeSort Diagnostic.before).map Diagnostic.line)

/-- The text of the file once its content is decoded, or the diagnostic that says why it cannot be. -/
def decode (f : File) : Except Diagnostic String :=
  let fault := fun text => ({
    text, severity := .error, rule := some "encoding", source := some Diagnostic.scannerSource
    fatal := true } : Diagnostic)
  match f.source with
  | .text s => .ok s
  | .bytes bs =>
    match f.encoding.decode bs with
    | .ok cs => .ok (String.ofList cs)
    | .error offset =>
      .error (fault ("Cannot decode input as " ++ f.encoding.name ++ ": invalid byte at offset " ++ toString offset))
  | .points ns =>
    let offset := (ns.takeWhile fun n => !Source.isSurrogate n).length
    .error (fault ("Input contains an unencodable character at offset " ++ toString offset))

end File

end MarkdownTree
