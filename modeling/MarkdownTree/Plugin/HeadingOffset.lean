import MarkdownTree.Plugin

/-!
# Heading offsets

A plugin that moves headings up or down by some levels. Depths stay between one and six.
-/

namespace MarkdownTree.HeadingOffset

variable {σ : Type}

/-- The nearest depth that a heading can have. -/
def clamp (depth : Value) : Value :=
  match depth.size? with
  | some r => if !r.below (.ofInt 6) then .int 6 else if (Size.ofInt 1).below r then depth else .int 1
  | none => depth

/-- Moves a heading. -/
def move (offset : Value) (id : NodeId) : Stage σ Unit := do
  match ((← Stage.graph).cell? id).bind fun c => c.field? "depth" with
  | none => throw .field
  | some depth =>
    let some depth := depth.sum? offset | throw .mistyped
    Stage.edit fun g => g.modify id fun c => c.setField "depth" (clamp depth)

/-- Moves every heading of a document. -/
def transform (offset : Value) (tree : NodeId) : Stage σ Unit := do
  let g ← Stage.graph
  ((g.preorder tree).filter fun id => g.kind? id == some .heading).forM (move offset)

/-- The options of the plugin. -/
def parameters : List (String × Parameter) :=
  [("offset", { types := [.int], default := .int 1, help := "Number of levels to shift (positive or negative)" })]

/-- Attaches the plugin, which has nothing to do if the offset is zero. -/
def attach (given : List Field) : Stage σ (Attached σ) := do
  let options ← optionsFor (parameters.map fun (name, p) => (name, p.default)) given
  let offset := fieldOf options "offset"
  return if offset.same (.int 0) then .nothing else .editing (transform offset)

end MarkdownTree.HeadingOffset
