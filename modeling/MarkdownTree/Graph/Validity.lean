import MarkdownTree.Graph

/-!
# Valid trees

The rules that every tree should keep whatever was done to it: one root at the top, values and children where the kinds
ask for them, containers that hold what they can hold, no node in two places, and positions that nest and follow each
other. Checking lists all that breaks them, in document order; a strict check fails with the first of it.
-/

namespace MarkdownTree

/-- A rule broken, the node that breaks it, and where it stands: the indices that lead to it from the top. -/
structure Issue where
  message : String
  node : NodeId
  path : List Nat
deriving DecidableEq, Repr

/-- The line of a report about an issue. -/
def Issue.line (i : Issue) : String :=
  let place := if i.path.isEmpty then "<root>" else "/".intercalate (i.path.map toString)
  place ++ ": " ++ i.message

/-- What a check has found so far: the issues, and the nodes that it has looked into. -/
structure Findings where
  issues : List Issue := []
  seen : List NodeId := []

/-- Work of a check. -/
abbrev Check :=
  EStateM Fault Findings

namespace Check

/-- Adds an issue. A strict check fails with it. -/
def note (strict : Bool) (i : Issue) : Check Unit := do
  modify fun f => { f with issues := f.issues ++ [i] }
  if strict then throw (.value (.invalidTree i.line))

/-- Adds a node to those that have been looked into. -/
def mark (id : NodeId) : Check Unit :=
  modify fun f => { f with seen := id :: f.seen }

end Check

namespace Graph

variable (g : Graph)

/-- Containers of blocks. -/
def holdsBlocks : Kind → Bool
  | .root | .blockQuote | .listItem => true
  | _ => false

/-- Containers of inline nodes. -/
def holdsInlines : Kind → Bool
  | .heading | .paragraph | .emphasis | .strong | .link => true
  | _ => false

/-- What is wrong with a child of a kind at an index of a container. -/
def containmentFault? (container child : Kind) (index : Nat) : Option String :=
  if child == .frontMatter && !(container == .root && index == 0) then
    some "front_matter may only be the first child of the root"
  else if container == .list then
    if child == .listItem then none else some ("list can only contain list_item nodes, got " ++ child.name)
  else if holdsBlocks container then
    if child.isBlock && child != .listItem then none
    else some (container.name ++ " can only contain block nodes, got " ++ child.name)
  else if holdsInlines container then
    if child.isBlock then some (container.name ++ " can only contain inline nodes, got " ++ child.name)
    else if container == .link && child == .link then some "link cannot contain another link"
    else none
  else none

/-- The children that are nodes, with their indices. -/
def seated (items : List Item) : List (Nat × NodeId) :=
  items.zipIdx.filterMap fun (item, index) => item.id?.map fun id => (index, id)

/-- The issues of children that their container cannot hold. -/
def containmentIssues (c : Cell) (path : List Nat) (items : List Item) : List Issue :=
  (seated items).filterMap fun (index, id) => do
    let child ← g.kind? id
    let message ← containmentFault? c.kind child index
    return ⟨message, id, path ++ [index]⟩

/-- The issues of the positions of children, each compared with its parent and with the child before it. -/
def positionIssues (c : Cell) (path : List Nat) (previous : Option Position) : List (Nat × NodeId) → List Issue
  | [] => []
  | (index, id) :: rest =>
    match g.cell? id with
    | none => positionIssues c path previous rest
    | some child =>
      match child.position with
      | none => positionIssues c path previous rest
      | some p =>
        let outside := match c.position with
          | some q => !q.contains p
          | none => false
        let early := match previous with
          | some q => q.overlaps p || p.start.offset < q.stop.offset
          | none => false
        let issue := fun message => Issue.mk message id (path ++ [index])
        (if outside then [issue (child.kind.name ++ " position lies outside its parent " ++ c.kind.name)] else [])
          ++ (if early then [issue (child.kind.name ++ " position overlaps or precedes its previous sibling")] else [])
          ++ positionIssues c path (some p) rest

/-- What is wrong with the value of a node. -/
def valueFault? (c : Cell) : Option String :=
  if c.kind.isLiteral then
    match c.field? "value" with
    | some (.text _) => none
    | _ => some (c.kind.name ++ " must carry a string value")
  else if (c.field? "value").isSome then some (c.kind.name ++ " must not carry a value")
  else none

/-- What is wrong with what a node has for children. -/
def slotFault? (c : Cell) : Option String :=
  if c.kind.isParent then
    match c.children with
    | .items _ => none
    | _ => some (c.kind.name ++ " children must be a list")
  else if c.children = .none then none
  else some (c.kind.name ++ " must not have children")

/-- The issues of a node apart from those of its children. -/
def ownIssues (positions : Bool) (c : Cell) (id : NodeId) (path : List Nat) : List Issue :=
  let issue := fun message => Issue.mk message id path
  (if c.kind == .root && !path.isEmpty then [issue "Root node found below the top of the tree"] else [])
    ++ ((valueFault? c).map issue).toList ++ ((slotFault? c).map issue).toList
    ++ g.containmentIssues c path c.items
    ++ (if positions then g.positionIssues c path none (seated c.items) else [])

/-- Checks what stands at an index among the children of a node, given how a node at the end of a path is checked. -/
def checkItem (strict : Bool) (c : Cell) (id : NodeId) (path : List Nat) (below : NodeId → List Nat → Check Unit) :
    Item × Nat → Check Unit
  | (.node child, index) => below child (path ++ [index])
  | (.value v, index) =>
    .note strict ⟨"Child " ++ toString index ++ " of " ++ c.kind.name ++ " is not a node: " ++ v.literal, id, path⟩

/-- Checks the tree below a node. Every node is looked into once, so the number of nodes bounds the depth. -/
def check (strict positions : Bool) : Nat → NodeId → List Nat → Check Unit
  | 0, _, _ => return
  | fuel + 1, id, path => do
    let some c := g.cell? id | return
    if (← get).seen.contains id then
      .note strict ⟨"Node instance " ++ c.kind.name ++ " appears more than once in the tree", id, path⟩
    else
      .mark id
      (g.ownIssues positions c id path).forM (.note strict)
      c.items.zipIdx.forM (checkItem strict c id path (check strict positions fuel))

/-- Checks that a node is a root. -/
def checkTop (strict : Bool) (id : NodeId) : Check Unit :=
  match g.kind? id with
  | some .root | none => pure ()
  | some kind => .note strict ⟨"Tree must start with a root node, got " ++ kind.name, id, []⟩

/-- Checks the tree that a node is the top of. -/
def validate (strict positions : Bool) (id : NodeId) : Check Unit := do
  g.checkTop strict id
  g.check strict positions (g.size + 1) id []

/-- All that is wrong with the tree below a node, with or without its positions. -/
def issues (positions : Bool) (id : NodeId) : List Issue :=
  match (g.validate false positions id).run {} with
  | .ok _ f | .error _ f => f.issues

/-- Fails where something is wrong with the tree below a node. -/
def requireValid (positions : Bool) (id : NodeId) : Except Fault Unit :=
  match (g.validate true positions id).run {} with
  | .ok .. => .ok ()
  | .error fault _ => .error fault

end Graph

end MarkdownTree
