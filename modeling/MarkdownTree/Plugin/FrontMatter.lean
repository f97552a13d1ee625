import MarkdownTree.Plugin
import MarkdownTree.Yaml.Document

/-!
# Front matter

A plugin that reads the front matter of a document and leaves what it says with the file.
-/

namespace MarkdownTree.FrontMatter

variable {σ : Type}

/-- The key under which the data of the front matter is left. -/
def key : DataKey where
  owner := "front_matter".toList
  name := "data".toList
  owner_ne_nil := by decide
  colon_not_mem := by decide
  name_ne_nil := by decide

/-- Complains about front matter, and gives up on the file if the plugin is strict. -/
def complain (strict : Bool) (node : Cell) (text : String) : Stage σ Unit := do
  let d : Diagnostic := {
    text, position := node.position, rule := some "invalid-front-matter", source := some "front_matter" }
  if strict then Stage.fail d else Stage.record d

/-- What the text of front matter says; blank text says nothing. -/
def read (text : String) : Except Yaml.Defect Value :=
  if (Text.trim text.toList).isEmpty then .ok (.map []) else Yaml.load text.toList

/-- The fault that a defect is for the plugin. A malformed text is none, since the plugin complains about it. -/
def faultOf? : Yaml.Defect → Option Fault
  | .malformed => none
  | .noDigits base => some (.value (.noDigits base))
  | .longNumeral digits => some (.value (.longNumeral digits))
  | .heavyPart => some (.foreign "OverflowError" "int too large to convert to float")
  | .codePoint number =>
    if number < Nat.pow 2 31 then some (.value .codePoint)
    else some (.foreign "OverflowError" "Python int too large to convert to C int")

/-- Reads the text of a node and leaves what it says with the file. -/
def readNode (strict : Bool) (node : Cell) (text : String) : Stage σ Unit := do
  match read text with
  | .error defect =>
    match faultOf? defect with
    | some fault => throw fault
    | none => complain strict node "Invalid YAML front matter: <yaml>"
  | .ok (.map entries) =>
    Stage.editFile fun f => { f with data := f.data.insert key (.map entries) }
    Stage.say .debug .builtins ("Parsed " ++ toString entries.length ++ " front matter field(s)")
  | .ok v => complain strict node ("Front matter must be a mapping, got " ++ v.typeName)

/-- The front matter of a document: the first child of its root, if that is of this kind. -/
def front? (g : Graph) (tree : NodeId) : Option Cell := do
  let node ← g.cell? (← (← (g.items tree).head?).id?)
  if node.kind = .frontMatter then some node else none

/-- Reads the front matter of a document, if it has any. -/
def transform (strict : Bool) (tree : NodeId) : Stage σ Unit := do
  if let some node := front? (← Stage.graph) tree then
    match node.field? "value" with
    | some (.text text) => readNode strict node text
    | _ => throw .field

/-- The options of the plugin. -/
def parameters : List (String × Parameter) :=
  [("strict", { types := [.flag], default := .bool false, help := "Fail the file on invalid front matter" })]

/-- Attaches the plugin. -/
def attach (given : List Field) : Stage σ (Attached σ) := do
  let options ← optionsFor (parameters.map fun (name, p) => (name, p.default)) given
  return .editing (transform (fieldOf options "strict").truthy)

end MarkdownTree.FrontMatter
