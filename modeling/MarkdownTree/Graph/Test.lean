import MarkdownTree.Graph

/-!
# Tests of nodes

What selects nodes in a search or a walk.
-/

namespace MarkdownTree

/-- A test that a node can pass. -/
inductive NodeTest where
  | any
  | kind (name : String)
  | anyOf (tests : List NodeTest)
  /-- A condition on a node and on the graph that it is in. -/
  | satisfies (p : Graph → NodeId → Bool)
  /-- Something that is no test. -/
  | invalid (v : Value)

namespace NodeTest

mutual

/-- The first thing in a test that is none. -/
def fault? : NodeTest → Option Value
  | anyOf tests => faultIn? tests
  | invalid v => some v
  | _ => none

/-- The first thing in a list of tests that is none. -/
def faultIn? : List NodeTest → Option Value
  | [] => none
  | t :: ts => (fault? t).or (faultIn? ts)

end

/-- The fault of something that is no test. -/
def check (t : NodeTest) : Except Fault Unit :=
  match t.fault? with
  | some v => .error (.type (.visitTest v))
  | none => .ok ()

end NodeTest

namespace Graph

mutual

/-- A node of the graph passes a test. -/
def passes (g : Graph) (t : NodeTest) (id : NodeId) : Bool :=
  match t with
  | .any => true
  | .kind name => (g.kind? id).any (·.name == name)
  | .anyOf tests => passesAny g tests id
  | .satisfies p => p g id
  | .invalid _ => false

/-- A node of the graph passes one of a list of tests. -/
def passesAny (g : Graph) (ts : List NodeTest) (id : NodeId) : Bool :=
  match ts with
  | [] => false
  | t :: ts => passes g t id || passesAny g ts id

end

/-- The nodes of a tree that pass a test, in document order. -/
def select (g : Graph) (t : NodeTest) (id : NodeId) : List NodeId :=
  (g.preorder id).filter (g.passes t)

/-- The nodes that pass a test, as they come to the top of a stack on which the children of each are put in its place;
`fuel` bounds how many come. Only nodes come off it. -/
def iterateFrom (g : Graph) (t : NodeTest) : Nat → List Item → Except Fault (List NodeId)
  | _, [] => .ok []
  | 0, _ :: _ => .error .endless
  | _ + 1, .value _ :: _ => .error .field
  | fuel + 1, .node id :: rest => do
    (g.stray? id).forM Draft.checkRow
    let found ← iterateFrom g t fuel (g.items id ++ rest)
    return if g.passes t id then id :: found else found

/-- The nodes of a tree that pass a test, one after the other. -/
def iterate (g : Graph) (t : NodeTest) (id : NodeId) : Except Fault (List NodeId) :=
  g.iterateFrom t (g.preorder id).length [.node id]

end Graph

end MarkdownTree
