import MarkdownTree.Graph.Visit
import MarkdownTree.Plugin

/-!
# Removing kinds

A plugin that removes all nodes of some kinds, with what is below them.
-/

namespace MarkdownTree.RemoveKinds

variable {σ : Type}

/-- The names that a value lists: the items of a list, the keys of a map, or the characters of a text. -/
def namesOf : Value → Except Fault (List String)
  | .list vs => vs.mapM fun
    | .text s => .ok s
    | _ => .error .mistyped
  | .map entries => entries.mapM fun
    | (.text s, _) => .ok s
    | _ => .error .mistyped
  | .text s => .ok (s.toList.map Char.toString)
  | _ => .error .mistyped

/-- The kinds of some names, none of which is that of the root. -/
def kindsOf (names : List String) : Except Fault (List Kind) :=
  let unknown := (names.filter fun s => (Kind.ofName? s).isNone).eraseDups
  if !unknown.isEmpty then .error (.value (.unknownKinds (unknown.mergeSort (· ≤ ·))))
  else if names.contains Kind.root.name then .error (.value .rootRemoval)
  else .ok (names.filterMap Kind.ofName?)

/-- Removes a node from its parent; the walk goes on with what takes its place. -/
def remove (_ : NodeId) (seat : Option Seat) : Stage σ Reply := do
  match seat with
  | none => return .proceed
  | some seat =>
    Stage.edit fun g => g.modifyItems seat.parent fun items => items.eraseIdx seat.index
    return .goto seat.index

/-- The walk that removes the nodes of some kinds. -/
def visitor (kinds : List Kind) : Visitor (Session σ) where
  graph := Session.graph
  test := .satisfies fun g id => (g.kind? id).any kinds.contains
  backwards := false
  callback := remove

/-- Removes the nodes of some kinds from a document. The walk takes at most three steps for each node. -/
def transform (kinds : List Kind) (tree : NodeId) : Stage σ Unit := do
  (visitor kinds).visit (3 * ((← Stage.graph).preorder tree).length + 3) tree

/-- The options of the plugin. -/
def parameters : List (String × Parameter) :=
  [("kinds", {
    types := [.list, .tuple, .frozenSet, .set]
    default := .list [.text "image"]
    help := "Node kinds to remove (e.g. 'image', 'code_block')" })]

/-- Attaches the plugin. -/
def attach (given : List Field) : Stage σ (Attached σ) := do
  let options ← optionsFor (parameters.map fun (name, p) => (name, p.default)) given
  let kinds ← kindsOf (← namesOf (fieldOf options "kinds"))
  return .editing (transform kinds)

end MarkdownTree.RemoveKinds
