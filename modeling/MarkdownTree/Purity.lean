import MarkdownTree.Draft.Codec
import MarkdownTree.Processor.Run
import MarkdownTree.Text.Difference
import MarkdownTree.Text.Lines

/-!
# Purity

Whether a plugin does the same every time. It is attached once and run on two files of the same text. It is pure if both
runs end with equal trees and diagnostics and no node stands in both trees.
-/

namespace MarkdownTree

/-- What two runs of a plugin had in common and what not. -/
structure PurityReport where
  plugin : String
  differences : List String
  shared : List Kind
  messagesMatch : Bool
deriving Repr

namespace PurityReport

/-- The two runs cannot be told apart. -/
def isPure (r : PurityReport) : Bool :=
  r.differences.isEmpty && r.shared.isEmpty && r.messagesMatch

/-- The report in words. -/
def summary (r : PurityReport) : String :=
  let name := "Plugin '" ++ r.plugin ++ "'"
  if r.isPure then name ++ " produced identical results on repeated runs"
  else
    let trees := if r.differences.isEmpty then [] else "  output trees differ:" :: r.differences.map ("    " ++ ·)
    let kinds := ", ".intercalate (r.shared.map Kind.name)
    let nodes := if r.shared.isEmpty then [] else ["  node instances shared between documents: " ++ kinds]
    let messages := if r.messagesMatch then [] else ["  diagnostics differ between runs"]
    "\n".intercalate ((name ++ " is not pure:") :: trees ++ nodes ++ messages)

end PurityReport

namespace Diagnostic

/-- What two runs are compared by: a diagnostic without its path and without whether it is fatal. -/
def essence (d : Diagnostic) : Diagnostic :=
  { d with fatal := false, path := none }

end Diagnostic

/-- The serialized trees of two runs differ in these lines. -/
def treeDifference (first second : Draft) : Except Fault (List String) := do
  let lines := Text.lines (← first.toJson (.spaced 2) true)
  return Text.difference "first run" "second run" lines (Text.lines (← second.toJson (.spaced 2) true))

namespace Processor

variable {σ : Type}

/-- Runs the plugins on a new file: the tree that they leave, and the diagnostics. -/
def trial (p : Processor σ) (file : File) : Stage σ (NodeId × List Diagnostic) := do
  modify fun s => { s with job := { file } }
  let tree ← p.runSync (← p.parse)
  return (tree, (← Stage.file).messages)

/-- Runs the plugins on two files alike and compares what they leave. -/
def comparePurity (p : Processor σ) (file : File) : Stage σ PurityReport := do
  let (first, messages) ← p.trial file
  let (second, others) ← p.trial file
  let g ← Stage.graph
  let differences ← treeDifference (g.unfold first) (g.unfold second)
  let report : PurityReport := {
    plugin := (p.registrations.head?.map (·.plugin.name)).getD ""
    differences
    shared := (g.shared first second).filterMap g.kind?
    messagesMatch := messages.map Diagnostic.essence == others.map Diagnostic.essence }
  if !report.isPure then Stage.say .warning .purity report.summary
  return report

end Processor

end MarkdownTree
