import MarkdownTree.Processor

/-!
# Runs

A run reads the file of the session, passes its tree through the transformers and writes it. There are two ways to run:
one never waits and fails where a transformer would have to be waited for; the other waits, and looks between any two
steps whether it has been cancelled. A run that stops early leaves the file as the last step left it, and where a fault
of its own stops it, the fault has the file with it.
-/

namespace MarkdownTree.Processor

variable {σ : Type}

/-! ### Steps -/

/-- Runs what works on the file: orderly faults have the file with them. -/
def carrying {α : Type} (stage : Stage σ α) : Stage σ α :=
  tryCatch stage fun fault => throw fault.withFile

/-- Reads the file. -/
def parse (p : Processor σ) : Stage σ NodeId :=
  carrying do
    p.reader.read
    match (← get).job.tree with
    | some tree => return tree
    | none => throw (.parse .treeless)

/-- Runs what belongs to a transformer: its faults are wrapped, unless it gave up on the file. What stops it from
outside, such as an exit or the cancellation of its task, is no `Fault`: it passes through uncaught, and is outside this
model. -/
def guarded {α : Type} (name : String) (stage : Stage σ α) : Stage σ α :=
  tryCatch stage fun
    | .failure text => throw (.failure text)
    | fault => do
      say .error ("Plugin '" ++ name ++ "' failed on " ++ pathText (← Stage.file).path)
      throw (.carrying (.transformer name fault))

/-- Settles which tree goes on after a transformer. -/
def settle (name : String) (tree : NodeId) (item : Item) : Stage σ NodeId := do
  let verdict ← carrying do Verdict.ofItem (← Stage.graph) (some name) item
  Stage.setTree (verdict.apply tree)
  return verdict.apply tree

/-- Says that a transformer is about to run. -/
def announce (name : String) : Stage σ Unit :=
  say .debug ("Running plugin '" ++ name ++ "'")

/-! ### Transforming -/

/-- Passes a tree through transformers without waiting. -/
def transformNow (tree : NodeId) : List (String × Transformer σ) → Stage σ NodeId
  | [] => return tree
  | (name, t) :: rest => do
    announce name
    match ← guarded name (t tree) with
    | .later _ close =>
      close
      throw (.carrying (.synchrony name))
    | .now item => transformNow (← settle name tree item) rest

/-- A step before which a run can be cancelled. -/
inductive Boundary where
  | parse
  | plugin (name : String)
  | print
deriving DecidableEq, Repr

/-- The name of a step in messages. -/
def Boundary.text : Boundary → String
  | parse => "parse"
  | plugin name => "plugin '" ++ name ++ "'"
  | print => "print"

/-- Passes a tree through transformers, waiting where needed, until the run is cancelled. -/
def transformUntil (cancelled : Stage σ Bool) (tree : NodeId) :
    List (String × Transformer σ) → Stage σ (NodeId × Option Boundary)
  | [] => return (tree, if ← cancelled then some .print else none)
  | (name, t) :: rest => do
    if ← cancelled then return (tree, some (.plugin name))
    announce name
    let item ← match ← guarded name (t tree) with
      | .now item => pure item
      | .later wait _ => guarded name wait
    transformUntil cancelled (← settle name tree item) rest

/-- Records that the run was cancelled before a step. -/
def recordCancellation (b : Boundary) : Stage σ Unit := do
  say .info ("Processing of " ++ pathText (← Stage.file).path ++ " cancelled before " ++ b.text)
  Stage.record {
    text := "Processing cancelled before " ++ b.text
    severity := .info, rule := some "cancelled", source := some Diagnostic.runSource }

/-- Passes a tree through the plugins without waiting. -/
def runSync (p : Processor σ) (tree : NodeId) : Stage σ NodeId := do
  let p ← p.freeze
  Stage.setTree tree
  transformNow tree (p.transformers.getD [])

/-- Passes a tree through the plugins, waiting where needed, until the run is cancelled. -/
def runUntil (p : Processor σ) (cancelled : Stage σ Bool) (tree : NodeId) : Stage σ (NodeId × Option Boundary) := do
  let p ← p.freeze
  Stage.setTree tree
  transformUntil cancelled tree (p.transformers.getD [])

/-- Passes a tree through the plugins, waiting where needed; a cancelled run gives the tree that it reached. -/
def run (p : Processor σ) (cancelled : Stage σ Bool) (tree : NodeId) : Stage σ NodeId := do
  let (tree, stopped) ← p.runUntil cancelled tree
  if let some b := stopped then recordCancellation b
  return tree

/-! ### Whole runs -/

/-- Logs the diagnostics of the file. -/
def reportFile : Stage σ Unit := do
  Stage.report (LogRecord.ofFile (← Stage.file))

/-- Writes a tree into the file. -/
def finish (p : Processor σ) (tree : NodeId) : Stage σ Unit := do
  let text ← carrying (p.writer.write tree)
  Stage.editFile fun f => { f with result := some text, source := .text text }
  let file ← Stage.file
  say .info ("Processed " ++ pathText file.path ++ " (" ++ toString file.messages.length ++ " message(s))")
  reportFile

/-- Says that the file is about to be processed. -/
def begin : Stage σ Unit := do
  say .info ("Processing " ++ pathText (← Stage.file).path)

/-- Reads, transforms and writes the file without waiting. -/
def processSync (p : Processor σ) : Stage σ Unit := do
  let p ← p.freeze
  begin
  let tree ← p.parse
  let tree ← p.runSync tree
  p.finish tree

/-- Leaves the file as it is because the run was cancelled before a step. -/
def leave (b : Boundary) : Stage σ Unit := do
  recordCancellation b
  reportFile

/-- Reads, transforms and writes the file, waiting where needed, until the run is cancelled. -/
def process (p : Processor σ) (cancelled : Stage σ Bool) : Stage σ Unit := do
  let p ← p.freeze
  begin
  if ← cancelled then leave .parse
  else
    let tree ← p.parse
    let (tree, stopped) ← p.runUntil cancelled tree
    match stopped with
    | some b => leave b
    | none => p.finish tree

end MarkdownTree.Processor
