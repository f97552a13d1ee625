import MarkdownTree.Graph.Test

/-!
# Visits

A walk through a tree that calls back on the nodes that pass a test and lets the callback edit the tree under way. The
walk goes by indices and looks at the children anew after every call, so that siblings put in ahead are visited in turn,
and a sibling that moved into the place of a removed node is not missed.
-/

namespace MarkdownTree

/-- What a callback wants next. -/
inductive Reply where
  /-- Go on with the children. -/
  | proceed
  /-- Pass over the children. -/
  | skip
  /-- End the walk. -/
  | stop
  /-- Go on with the sibling at an index. -/
  | goto (index : Int)
  /-- Something that is no reply. -/
  | invalid (v : Value)
deriving DecidableEq, Repr

/-- A place among the children of a node. -/
structure Seat where
  index : Nat
  parent : NodeId
deriving DecidableEq, Repr

/-- Where the walk goes after a node. -/
inductive Outcome where
  | next
  | stop
  | goto (index : Int)
deriving DecidableEq, Repr

/-- A walk over a state: how it holds the graph, which nodes are called back on, and the callback. -/
structure Visitor (σ : Type) where
  graph : σ → Graph
  test : NodeTest
  backwards : Bool
  callback : NodeId → Option Seat → EStateM Fault σ Reply

namespace Visitor

variable {σ : Type} (v : Visitor σ)

/-- The index after another in the direction of the walk. -/
def step (index : Nat) : Int :=
  if v.backwards then (index : Int) - 1 else index + 1

/-- Where a node stands now that its callback has returned, given how many siblings there were before. -/
inductive Standing where
  /-- The node stands where it did, or has no siblings. -/
  | same
  /-- The node moved to another index. -/
  | moved (index : Nat)
  /-- The node is gone, and there are fewer siblings. -/
  | removed
  /-- Another item took its place. -/
  | replaced (item : Item)
  /-- The node is gone, and nothing stands at its index. -/
  | vanished
deriving DecidableEq, Repr

/-- Where a node stands among its siblings after its callback. -/
def standing (siblings : List Item) (before index : Nat) (id : NodeId) : Standing :=
  if siblings[index]? = some (.node id) then .same
  else if .node id ∈ siblings then .moved (siblings.idxOf (.node id))
  else if siblings.length < before then .removed
  else
    match siblings[index]? with
    | some item => .replaced item
    | none => .vanished

/-- The number of a node's siblings, itself among them. -/
def siblingCount (g : Graph) (seat : Option Seat) : Nat :=
  match seat with
  | some seat => (g.items seat.parent).length
  | none => 0

/-- Where a node stands after its callback; the start of the walk has no siblings. -/
def standingOf (g : Graph) (before : Nat) (id : NodeId) : Option Seat → Standing
  | none => .same
  | some seat => standing (g.items seat.parent) before seat.index id

/-- The index of the child with which a node's children begin in the direction of the walk. -/
def firstIndex (g : Graph) (id : NodeId) : Int :=
  if v.backwards then ((g.items id).length : Int) - 1 else 0

/-- Fails if something other than a list stands in the place of a node's children and cannot be walked. The entries of
a map cannot be found by their indices. -/
def checkItems (g : Graph) (id : NodeId) : Except Fault Unit :=
  match g.stray? id with
  | some (.map (_ :: es)) => .error (.key (.missing (.int (if v.backwards then es.length else 0))))
  | some stray => Draft.checkRow stray
  | none => .ok ()

/-- The index of the child after one that was walked. -/
def after (index : Nat) : Outcome → Int
  | .goto i => i
  | _ => v.step index

mutual

/-- Walks a node; `fuel` bounds how far the walk goes. Nothing but nodes can be walked. -/
def walk : Nat → Item → Option Seat → EStateM Fault σ Outcome
  | 0, _, _ => throw .endless
  | _ + 1, .value _, _ => throw .field
  | fuel + 1, .node id, seat => do
    let g := v.graph (← get)
    if g.passes v.test id then
      let before := siblingCount g seat
      match ← v.callback id seat with
      | .invalid value => throw (.type (.visitReply value))
      | .stop => return .stop
      | .skip => return .next
      | .goto i => return .goto i
      | .proceed =>
        let index := (seat.map Seat.index).getD 0
        match standingOf (v.graph (← get)) before id seat with
        | .same => descend fuel (.node id) .next
        | .moved i => descend fuel (.node id) (.goto (v.step i))
        | .removed => return .goto (if v.backwards then (index : Int) - 1 else index)
        | .replaced item => descend fuel item .next
        | .vanished => return .next
    else descend fuel (.node id) .next

/-- Walks the children of an item, after which the walk goes where it is told. -/
def descend : Nat → Item → Outcome → EStateM Fault σ Outcome
  | 0, _, _ => throw .endless
  | _ + 1, .value _, _ => throw .field
  | fuel + 1, .node id, resume => do
    match v.checkItems (v.graph (← get)) id with
    | .error fault => throw fault
    | .ok () => pure ()
    match ← walkFrom fuel id (v.firstIndex (v.graph (← get)) id) with
    | .stop => return .stop
    | _ => return resume

/-- Walks the children of a node from an index on. -/
def walkFrom : Nat → NodeId → Int → EStateM Fault σ Outcome
  | 0, _, _ => throw .endless
  | fuel + 1, id, index => do
    if index < 0 then return .next
    let i := index.toNat
    match ((v.graph (← get)).items id)[i]? with
    | none => return .next
    | some child =>
      match ← walk fuel child (some ⟨i, id⟩) with
      | .stop => return .stop
      | outcome => walkFrom fuel id (v.after i outcome)

end

/-- Walks the tree below a node. -/
def visit (fuel : Nat) (id : NodeId) : EStateM Fault σ Unit := do
  match v.test.check with
  | .error fault => throw fault
  | .ok () =>
    let _ ← v.walk fuel (.node id) none

end Visitor

end MarkdownTree
