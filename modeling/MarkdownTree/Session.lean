import MarkdownTree.Graph
import MarkdownTree.Log

/-!
# Sessions

What the stages of a run work on: the nodes, the file with the tree that it has so far, what has been said, and
whatever the plugins remember from one call to the next. A stage may fail, and what it did before it failed stays done.
-/

namespace MarkdownTree

/-- A file on its way, and the root of its tree once it has one. -/
structure Job where
  file : File
  tree : Option NodeId := none
deriving Repr, Inhabited

/-- What stages work on; `σ` is what plugins remember. -/
structure Session (σ : Type) where
  graph : Graph
  job : Job
  log : List LogRecord
  memory : σ

instance {σ : Type} [Inhabited σ] : Inhabited (Session σ) :=
  ⟨.empty, default, [], default⟩

/-- Work on a session. -/
abbrev Stage (σ : Type) :=
  EStateM Fault (Session σ)

/-- What can only fail is work on any state. -/
instance {σ : Type} : MonadLift (Except Fault) (EStateM Fault σ) where
  monadLift
    | .ok a => return a
    | .error fault => throw fault

namespace Stage

variable {σ : Type}

/-- Puts records into the log. -/
def report (records : List LogRecord) : Stage σ Unit :=
  modify fun s => { s with log := s.log ++ records }

/-- Says something in the name of a logger. -/
def say (level : LogLevel) (logger : Logger) (text : String) : Stage σ Unit :=
  report [{ level, logger, text }]

/-- The nodes. -/
def graph : Stage σ Graph :=
  return (← get).graph

/-- Changes the nodes. -/
def edit (f : Graph → Graph) : Stage σ Unit :=
  modify fun s => { s with graph := f s.graph }

/-- Adds a node. -/
def add (c : Cell) : Stage σ NodeId :=
  modifyGet fun s => let (graph, id) := s.graph.add c; (id, { s with graph })

/-- Adds the nodes of a tree. -/
def load (t : Tree Position) : Stage σ NodeId :=
  modifyGet fun s => let (graph, id) := s.graph.load (t.map some); (id, { s with graph })

/-- Copies a tree, with or without its positions and its data. -/
def clone (id : NodeId) (keepPositions keepData : Bool) : Stage σ NodeId :=
  modifyGet fun s => let (graph, copy) := s.graph.clone id keepPositions keepData; (copy, { s with graph })

/-- What plugins remember. -/
def memory : Stage σ σ :=
  return (← get).memory

/-- Changes what plugins remember. -/
def remember (f : σ → σ) : Stage σ Unit :=
  modify fun s => { s with memory := f s.memory }

/-- The file. -/
def file : Stage σ File :=
  return (← get).job.file

/-- Changes the file. -/
def editFile (f : File → File) : Stage σ Unit :=
  modify fun s => { s with job := { s.job with file := f s.job.file } }

/-- Gives the file a tree. -/
def setTree (id : NodeId) : Stage σ Unit :=
  modify fun s => { s with job := { s.job with tree := some id } }

/-- Records a diagnostic on the file. -/
def record (d : Diagnostic) : Stage σ Unit := do
  let d := (← file).label d
  editFile (·.record d)
  report [.ofRecorded d]

/-- Records a fatal diagnostic on the file and gives up. -/
def fail {α : Type} (d : Diagnostic) : Stage σ α := do
  record { d with severity := .error, fatal := true }
  throw (.failure d.text)

/-- Turns the content of the file into text, or gives up on the file. -/
def decode : Stage σ Unit := do
  match (← file).decode with
  | .ok text => editFile fun f => { f with source := .text text }
  | .error d => fail d

/-- Leaves a value with the file under what may be a key. -/
def leave (key v : Value) : Stage σ Unit := do
  let data ← (← file).data.set key v
  editFile fun f => { f with data }

end Stage

end MarkdownTree
