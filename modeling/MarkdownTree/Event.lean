import MarkdownTree.Draft.Typed
import MarkdownTree.Position.Locator
import MarkdownTree.Scan.Anomaly

/-!
# Events

A tree as a row of events: a node is entered, its children follow, and it is left again. Building goes back from a row
of events to the tree; it fails unless the row is balanced, describes one root and every node of it can be made.
-/

namespace MarkdownTree

/-- The start of a node, or its end. -/
inductive Event where
  | enter (kind : String) (offset : Int) (attributes : List Field) (value : Option Value)
  | leave (kind : String) (offset : Int)
deriving DecidableEq, Repr

namespace Event

mutual

/-- The events of a tree. -/
def ofTree : Tree Span → List Event
  | .node span content children =>
    .enter content.kind.name span.start content.attributes (content.value?.map .text)
      :: ofTrees children ++ [.leave content.kind.name span.stop]

/-- The events of a list of trees. -/
def ofTrees : List (Tree Span) → List Event
  | [] => []
  | t :: ts => ofTree t ++ ofTrees ts

end

/-- A node that has been entered, and its children so far. -/
structure Frame where
  kind : String
  start : Int
  attributes : List Field
  value : Option Value
  children : List Draft

/-- The fields that a frame gives to a node of its kind. -/
def Frame.given (f : Frame) (kind : Kind) : List Field :=
  let attributes := f.attributes.filter fun field =>
    field.1 ≠ "data" && !(field.1 == "children" && kind.isParent) && !(field.1 == "value" && kind.isLiteral)
  let value := (f.value.filter Value.truthy).getD (.text "")
  if kind.isLiteral then attributes ++ [("value", value)] else attributes

/-- The node of a frame that is left at an offset. -/
def Frame.make (l : Locator) (f : Frame) (stop : Int) : Except Fault Draft := do
  let position ← Position.make (l.point f.start) (l.point stop)
  match Kind.ofName? f.kind with
  | none => throw (.key (.unknownKind (.text f.kind)))
  | some kind =>
    let children := if kind.isParent then f.children else []
    Draft.make kind (f.given kind) (some (.ofPosition position)) children

/-- What has been built of a tree: the frames still open (the innermost first), and the root once it is left. -/
structure Building where
  frames : List Frame
  root : Option Draft

/-- The building after one more event. -/
def Building.step (l : Locator) (b : Building) : Event → Except Fault Building
  | .enter kind offset attributes value =>
    if b.root.isSome then .error (.parse (.afterEnd kind))
    else .ok { b with frames := ⟨kind, offset, attributes, value, []⟩ :: b.frames }
  | .leave kind offset =>
    match b.frames with
    | [] => .error (.parse (.unbalanced kind none))
    | f :: frames =>
      if f.kind ≠ kind then .error (.parse (.unbalanced kind (some f.kind)))
      else do
        let node ← (f.make l offset).mapError (.event f.kind)
        match frames with
        | [] => return ⟨[], some node⟩
        | outer :: frames => return { b with frames := { outer with children := outer.children ++ [node] } :: frames }

/-- The building after a row of events. -/
def Building.run (l : Locator) (b : Building) : List Event → Except Fault Building
  | [] => .ok b
  | e :: es => do Building.run l (← b.step l e) es

/-- The tree that a row of events describes. -/
def build (l : Locator) (events : List Event) : Except Fault Draft := do
  let b ← Building.run l ⟨[], none⟩ events
  match b.frames, b.root with
  | f :: _, _ => throw (.parse (.unclosed f.kind))
  | [], some root => if root.kind? = some .root then return root else throw (.parse .notRoot)
  | [], none => throw (.parse .notRoot)

end Event

end MarkdownTree
