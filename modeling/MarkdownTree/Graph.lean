import MarkdownTree.Data
import MarkdownTree.Draft.Typed

/-!
# Graphs of nodes

Trees whose nodes have an identity: a node may be edited in place and may stand in several places, in one tree or in
two. A graph is a row of cells, one per node; children are given by the places of their cells. What a caller puts where
children belong is kept as it is, even if it is no node.
-/

namespace MarkdownTree

/-- The identity of a node. -/
abbrev NodeId :=
  Nat

/-- Something that stands among children. -/
inductive Item where
  | node (id : NodeId)
  | value (v : Value)
deriving DecidableEq, Repr

/-- The node that an item is. -/
def Item.id? : Item → Option NodeId
  | node id => some id
  | value _ => none

/-- What a node has for children. -/
inductive Slot where
  | none
  | items (items : List Item)
  | other (v : Value)
deriving DecidableEq, Repr

/-- What stands in the place of a list of children. -/
def Slot.stray? : Slot → Option Value
  | other v => some v
  | _ => .none

/-- The items of a list of children. -/
def Slot.toList : Slot → List Item
  | items xs => xs
  | _ => []

/-- A node of a graph. -/
structure Cell where
  kind : Kind
  fields : List Field
  children : Slot
  position : Option Position
  data : DataMap
deriving DecidableEq, Repr

namespace Cell

instance : Inhabited Cell := ⟨⟨.root, [], .items [], none, .empty⟩⟩

/-- A node of a kind with the given fields. -/
def make (kind : Kind) (given : List Field) (position : Option Position) (children : List Item) :
    Except Fault Cell := do
  let slot := if kind.isParent then Slot.items children else .none
  return ⟨kind, ← Draft.fieldsFor kind given, slot, position, .empty⟩

/-- The value of a field, if the node has it. -/
def field? (c : Cell) (name : String) : Option Value :=
  c.fields.lookup name

/-- The children of a parent. -/
def items (c : Cell) : List Item :=
  if c.kind.isParent then c.children.toList else []

/-- The children of a parent that are nodes. -/
def childIds (c : Cell) : List NodeId :=
  c.items.filterMap Item.id?

/-- The node with a field set, which it need not have had. -/
def setField (c : Cell) (name : String) (v : Value) : Cell :=
  if c.fields.any (·.1 == name) then { c with fields := MarkdownTree.setField name v c.fields }
  else { c with fields := c.fields ++ [(name, v)] }

/-- The node with any field set as a caller sets it, its children among them. A position can only be taken away. -/
def assign (c : Cell) (name : String) (v : Value) : Cell :=
  if name = "children" then
    { c with children := match v with
      | .list vs => .items (vs.map .value)
      | v => .other v }
  else if name = "position" ∧ v = .null then { c with position := none }
  else c.setField name v

/-- The node's children as a plain value, if there is none among them that is a node. -/
def plainChildren? (c : Cell) : Option Value :=
  match c.children with
  | .none => some .null
  | .other v => some v
  | .items xs =>
    if xs.all fun x => x.id?.isNone then
      some (.list (xs.filterMap fun
        | .value v => some v
        | .node _ => none))
    else none

/-- What the node says of itself under a name, if it is a plain value: null where it says nothing. -/
def says? (c : Cell) (name : String) : Option Value :=
  match name with
  | "kind" => some (.text c.kind.name)
  | "is_parent" => some (.bool c.kind.isParent)
  | "is_literal" => some (.bool c.kind.isLiteral)
  | "is_block" => some (.bool c.kind.isBlock)
  | "is_synthetic" => some (.bool c.position.isNone)
  | "attributes" => some (.record (c.kind.attributeNames.map fun name => (name, fieldOf c.fields name)))
  | "children" => c.plainChildren?
  | "position" => if c.position.isNone then some .null else none
  | "data" => some (.record c.data.toList)
  | name => some ((c.field? name).getD .null)

/-- The node with other children. -/
def setItems (c : Cell) (xs : List Item) : Cell :=
  { c with children := .items xs }

end Cell

/-- A row of cells. -/
structure Graph where
  cells : Array Cell
deriving Repr

namespace Graph

instance : Inhabited Graph := ⟨⟨#[]⟩⟩

/-- The graph without nodes. -/
def empty : Graph :=
  ⟨#[]⟩

/-- The number of nodes. -/
def size (g : Graph) : Nat :=
  g.cells.size

/-- The node of an identity. -/
def cell? (g : Graph) (id : NodeId) : Option Cell :=
  g.cells[id]?

/-- The children of a node. -/
def items (g : Graph) (id : NodeId) : List Item :=
  ((g.cell? id).map Cell.items).getD []

/-- The children of a node that are nodes. -/
def childIds (g : Graph) (id : NodeId) : List NodeId :=
  ((g.cell? id).map Cell.childIds).getD []

/-- What stands in the place of a parent's children. -/
def stray? (g : Graph) (id : NodeId) : Option Value := do
  let c ← g.cell? id
  if c.kind.isParent then c.children.stray? else none

/-- The kind of a node. -/
def kind? (g : Graph) (id : NodeId) : Option Kind :=
  (g.cell? id).map Cell.kind

/-- The graph with one more node, and its identity. -/
def add (g : Graph) (c : Cell) : Graph × NodeId :=
  (⟨g.cells.push c⟩, g.cells.size)

/-- The graph with a node changed. -/
def modify (g : Graph) (id : NodeId) (f : Cell → Cell) : Graph :=
  ⟨g.cells.modify id f⟩

/-- The graph with a node's children changed. -/
def modifyItems (g : Graph) (id : NodeId) (f : List Item → List Item) : Graph :=
  g.modify id fun c => c.setItems (f c.children.toList)

/-! ### From trees and to trees -/

mutual

/-- The graph with the nodes of a tree added, and the identity of its root. -/
def load (g : Graph) : Tree (Option Position) → Graph × NodeId
  | .node position content children =>
    let (g, ids) := loadList g children
    let slot := if content.kind.isParent then Slot.items (ids.map .node) else .none
    g.add ⟨content.kind, content.fields, slot, position, .empty⟩

/-- The graph with the nodes of a list of trees added, and the identities of their roots. -/
def loadList (g : Graph) : List (Tree (Option Position)) → Graph × List NodeId
  | [] => (g, [])
  | t :: ts =>
    let (g, id) := load g t
    let (g, ids) := loadList g ts
    (g, id :: ids)

end

/-- The draft of an item; below the given depth nothing is looked at. -/
def unfoldTo (g : Graph) : Nat → Item → Draft
  | 0, _ => .other .null
  | _ + 1, .value v => .other v
  | depth + 1, .node id =>
    match g.cell? id with
    | none => .other .null
    | some c =>
      let stray := c.children.stray?.map fun v => ("children", v)
      .node c.kind (c.fields ++ stray.toList) (c.position.map .ofPosition) (c.items.map (unfoldTo g depth)) (some id)

/-- The draft that an item is the root of. No node of a tree lies deeper than the number of nodes. -/
def unfoldItem (g : Graph) (x : Item) : Draft :=
  g.unfoldTo (g.size + 1) x

/-- The draft that a node is the root of. -/
def unfold (g : Graph) (id : NodeId) : Draft :=
  g.unfoldItem (.node id)

/-- The nodes of the tree below a node, in document order; below the given depth nothing is looked at. -/
def preorderTo (g : Graph) : Nat → NodeId → List NodeId
  | 0, _ => []
  | depth + 1, id => id :: (g.childIds id).flatMap (preorderTo g depth)

/-- The nodes of the tree below a node, in document order; one that stands in several places is there as often. -/
def preorder (g : Graph) (id : NodeId) : List NodeId :=
  g.preorderTo (g.size + 1) id

/-- Fails if something that is no node stands in a tree. -/
def requireNodes (g : Graph) (id : NodeId) : Except Fault Unit :=
  (g.unfold id).requireNodes

/-- Changes every node of a list, one after the other. -/
def modifyAll (g : Graph) (ids : List NodeId) (f : Cell → Cell) : Graph :=
  ids.foldl (fun g id => g.modify id f) g

/-- Takes the positions off all nodes of a tree. -/
def stripPositions (g : Graph) (id : NodeId) : Graph :=
  g.modifyAll (g.preorder id) fun c => { c with position := none }

/-- The nodes of the second tree that also stand in the first. -/
def shared (g : Graph) (first second : NodeId) : List NodeId :=
  let ids := g.preorder first
  (g.preorder second).filter ids.contains

/-! ### Copies -/

/-- Where the copy of a node stands when the copies of a list of nodes follow the nodes of a graph of some size. -/
def copyOf (base : Nat) (ids : List NodeId) (id : NodeId) : NodeId :=
  base + ids.idxOf id

/-- A cell whose children are copies. -/
def copyCell (base : Nat) (ids : List NodeId) (c : Cell) : Cell :=
  let item := fun
    | .node id => Item.node (copyOf base ids id)
    | x => x
  match c.children with
  | .items xs => { c with children := .items (xs.map item) }
  | _ => c

/-- The graph with a copy of a tree, and the root of the copy. A node that stands in several places is copied once. -/
def clone (g : Graph) (id : NodeId) (keepPositions keepData : Bool) : Graph × NodeId :=
  let ids := (g.preorder id).eraseDups
  let strip := fun c : Cell =>
    { c with
      position := if keepPositions then c.position else none
      data := if keepData then c.data else .empty }
  let copies := ids.filterMap fun id => (g.cell? id).map fun c => strip (copyCell g.size ids c)
  (⟨g.cells ++ copies.toArray⟩, copyOf g.size ids id)

/-- For each node of a tree in document order, where its first occurrence stands among the nodes that occur. -/
def identities (g : Graph) (id : NodeId) : List Nat :=
  let ids := g.preorder id
  ids.map fun i => ids.eraseDups.idxOf i

end Graph

end MarkdownTree
