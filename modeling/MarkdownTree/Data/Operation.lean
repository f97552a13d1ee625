import MarkdownTree.Data

/-!
# Operations on data maps

Everything that changes a data map, on the map itself or through the view of an owner. An operation gives a result or a
fault and leaves a map; only entries that were set before a faulty one stay when it fails.
-/

namespace MarkdownTree

namespace DataMap

/-- A change through the view of an owner. -/
inductive ViewOperation where
  | set (name : String) (value : Value)
  | remove (name : String)
  | pop (name : String) (default? : Option Value)
  | popFirst
  | setDefault (name : String) (value : Value)
  | update (given : Value)
  | clear
deriving DecidableEq, Repr

/-- A change of a data map. -/
inductive Operation where
  | set (key value : Value)
  | remove (key : Value)
  | setDefault (key value : Value)
  | update (given : Value)
  | view (owner : String) (operation : ViewOperation)
deriving DecidableEq, Repr

/-- A change that gives no value, or fails and changes nothing. -/
def changed (m : DataMap) : Except Fault DataMap → Except Fault Value × DataMap
  | .ok n => (.ok .null, n)
  | .error fault => (.error fault, m)

/-- A change that gives a value, or fails and changes nothing. -/
def changedWith (m : DataMap) : Except Fault (Value × DataMap) → Except Fault Value × DataMap
  | .ok (v, n) => (.ok v, n)
  | .error fault => (.error fault, m)

/-- A change that may fail half way. -/
def changedPartly : DataMap × Option Fault → Except Fault Value × DataMap
  | (m, none) => (.ok .null, m)
  | (m, some fault) => (.error fault, m)

/-- The result of a change through the view of an owner, and the map after it. -/
def performView (m : DataMap) (owner : String) : ViewOperation → Except Fault Value × DataMap
  | .set name v => m.changed (m.viewSet owner name v)
  | .remove name => m.changed (m.viewRemove owner name)
  | .pop name default? => m.changedWith (m.viewPop owner name default?)
  | .popFirst => m.changedWith ((m.viewPopFirst owner).map fun (e, n) => (.list [.text e.1, e.2], n))
  | .setDefault name v => m.changedWith (m.viewSetDefault owner name v)
  | .update given => changedPartly (m.viewUpdateFrom owner given)
  | .clear => (.ok .null, m.viewClear owner)

/-- The result of a change, and the map after it. -/
def perform (m : DataMap) : Operation → Except Fault Value × DataMap
  | .set key v => m.changed (m.set key v)
  | .remove key => m.changed (m.remove key)
  | .setDefault key v => m.changedWith (m.setDefault key v)
  | .update given => changedPartly (m.updateFrom given)
  | .view owner operation => m.performView owner operation

end DataMap

end MarkdownTree
