import MarkdownTree.Graph.Validity
import MarkdownTree.Plugin

/-!
# Structure checks

A plugin that complains about everything that breaks the rules of trees.
-/

namespace MarkdownTree.ValidateStructure

variable {σ : Type}

/-- Complains about an issue, and gives up on the file if the plugin is strict. -/
def complain (strict : Bool) (i : Issue) : Stage σ Unit := do
  let d : Diagnostic := {
    text := "Invalid tree structure: " ++ i.line
    position := ((← Stage.graph).cell? i.node).bind Cell.position
    rule := some "invalid-structure", source := some "validate_structure" }
  if strict then Stage.fail d else Stage.record d

/-- Checks a document. -/
def transform (strict : Bool) (tree : NodeId) : Stage σ Unit := do
  ((← Stage.graph).issues true tree).forM (complain strict)

/-- The options of the plugin. -/
def parameters : List (String × Parameter) :=
  [("fail_on_error", { types := [.flag], default := .bool false, help := "Fail the file on the first violation" })]

/-- Attaches the plugin. -/
def attach (given : List Field) : Stage σ (Attached σ) := do
  let options ← optionsFor (parameters.map fun (name, p) => (name, p.default)) given
  return .editing (transform (fieldOf options "fail_on_error").truthy)

end MarkdownTree.ValidateStructure
