import MarkdownTree.Yaml.Scalar

/-!
# Nodes of YAML

What a document is composed of, before its words are read: texts, lists and maps, in which what an alias repeats stands
in full. A node is then read as a value. Lists and maps are filled only after all that stands beside them, so of several
defects the one that counts is found level by level.
-/

namespace MarkdownTree.Yaml

/-- A node. -/
inductive Node where
  /-- A word without quotes, which may stand for anything. -/
  | plain (word : List Char)
  | text (text : List Char)
  | list (items : List Node)
  | map (entries : List (Node × Node))
deriving Repr, Inhabited

namespace Node

/-- The node that is not written: its word is empty, so it stands for null. -/
def absent : Node :=
  plain []

/-- As a key, it says that the entries of its value are merged in. -/
def isMerge : Node → Bool
  | plain word => word == ['<', '<']
  | _ => false

/-- As a key, it is the text that it is written as. -/
def isDefault : Node → Bool
  | plain word => word == ['=']
  | _ => false

/-- Lists and maps. -/
def isCollection : Node → Bool
  | list _ | map _ => true
  | _ => false

/-! ### Values -/

/-- The entries that a merged value gives: those of a map, or of a list of maps, the first of which counts most. -/
def mergedEntries : Value → Except Defect (List (Value × Value))
  | .map entries => .ok entries
  | .list vs => do
    let maps ← vs.mapM fun
      | .map entries => .ok entries
      | _ => .error .malformed
    return maps.reverse.flatten
  | _ => .error .malformed

mutual

/-- The value of a node. -/
def value : Node → Except Defect Value
  | plain word => resolve word
  | text t => .ok (.text (String.ofList t))
  | list items => return .list (← values items)
  | map entries => do
    let (merged, own) ← entryValues entries
    return .ofEntries (merged ++ own)

/-- The values of nodes. -/
def values : List Node → Except Defect (List Value)
  | [] => .ok []
  | n :: ns => return (← value n) :: (← values ns)

/-- The values of entries: those that are merged in, and those of the map itself, which count more. -/
def entryValues : List (Node × Node) → Except Defect (List (Value × Value) × List (Value × Value))
  | [] => .ok ([], [])
  | (k, n) :: entries => do
    if k.isMerge then
      let first ← mergedEntries (← value n)
      let (merged, own) ← entryValues entries
      return (first ++ merged, own)
    else
      let key ← if k.isDefault then .ok (.text "=") else value k
      if !key.isKey then .error .malformed
      let v ← value n
      let (merged, own) ← entryValues entries
      return (merged, (key, v) :: own)

end

/-! ### The first defect -/

mutual

/-- The entries that a merged node gives, as nodes. -/
def mergedNodes : Node → Except Defect (List (Node × Node))
  | map entries => do
    let (merged, own) ← unmerged entries
    return merged ++ own
  | list items => mergedItems items
  | _ => .error .malformed

/-- The entries that the merged nodes of a list give, those of its last node first. -/
def mergedItems : List Node → Except Defect (List (Node × Node))
  | [] => .ok []
  | .map entries :: items => do
    let (merged, own) ← unmerged entries
    return (← mergedItems items) ++ merged ++ own
  | _ :: _ => .error .malformed

/-- The entries that are merged into a map, and those of its own. -/
def unmerged : List (Node × Node) → Except Defect (List (Node × Node) × List (Node × Node))
  | [] => .ok ([], [])
  | (k, n) :: entries => do
    if k.isMerge then
      let first ← mergedNodes n
      let (merged, own) ← unmerged entries
      return (first ++ merged, own)
    else
      let (merged, own) ← unmerged entries
      return (merged, (k, n) :: own)

end

/-- Looks at a node that is no list and no map. -/
def checkLeaf : Node → Except Defect Unit
  | plain word => do let _ ← resolve word
  | _ => .ok ()

/-- Looks at a key, which is no list and no map. -/
def checkKey (k : Node) : Except Defect Unit :=
  if k.isCollection then .error .malformed else if k.isDefault then .ok () else k.checkLeaf

/-- Looks at the parts of a node one by one, and gives those that are lists and maps. -/
def checkParts : Node → Except Defect (List Node)
  | list items => do
    items.forM checkLeaf
    return items.filter isCollection
  | map entries => do
    let (merged, own) ← unmerged entries
    (merged ++ own).forM fun (k, n) => do
      k.checkKey
      n.checkLeaf
    return ((merged ++ own).map (·.2)).filter isCollection
  | _ => .ok []

/-- Looks at nodes and at all that is in them, level by level, for so many levels. -/
def checkLevels : Nat → List Node → Except Defect Unit
  | 0, _ => .ok ()
  | levels + 1, nodes => do
    let parts ← nodes.mapM checkParts
    checkLevels levels parts.flatten

mutual

/-- How many levels of nodes there are. -/
def depth : Node → Nat
  | list items => depthOfItems items + 1
  | map entries => depthOfEntries entries + 1
  | _ => 1

/-- The depth of the deepest item. -/
def depthOfItems : List Node → Nat
  | [] => 0
  | n :: ns => max (depth n) (depthOfItems ns)

/-- The depth of the deepest key or value. -/
def depthOfEntries : List (Node × Node) → Nat
  | [] => 0
  | (k, n) :: entries => max (max (depth k) (depth n)) (depthOfEntries entries)

end

/-- The value of a node, or its first defect. -/
def read (n : Node) : Except Defect Value := do
  n.checkLeaf
  checkLevels n.depth [n]
  n.value

end Node

end MarkdownTree.Yaml
