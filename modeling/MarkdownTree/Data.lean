import MarkdownTree.Value.Entries

/-!
# Data maps

Notes that plugins leave on a node or a file. Every key belongs to an owner and is written as the owner, a colon and a
name; no owner has a colon, so the first colon of a key tells the two apart. Entries keep the order in which they came.
-/

namespace MarkdownTree

/-- A key of a data map: its owner and its name. -/
structure DataKey where
  owner : List Char
  name : List Char
  owner_ne_nil : owner ≠ []
  colon_not_mem : ':' ∉ owner
  name_ne_nil : name ≠ []
deriving DecidableEq, Repr

namespace DataKey

/-- The key as it is written. -/
def text (k : DataKey) : String :=
  String.ofList (k.owner ++ ':' :: k.name)

/-- The key of an owner and a name. -/
def make (owner name : String) : Except Fault DataKey :=
  if ho : owner.toList = [] ∨ ':' ∈ owner.toList then .error (.value (.dataNamespace (.text owner)))
  else if hn : name.toList = [] then .error (.value .emptyField)
  else .ok ⟨owner.toList, name.toList, fun h => ho (.inl h), fun h => ho (.inr h), hn⟩

/-- The characters before the first colon have no colon among them. -/
theorem colon_not_mem_takeWhile (cs : List Char) : ':' ∉ cs.takeWhile (· != ':') := by
  intro h
  have := List.all_eq_true.1 List.all_takeWhile _ h
  simp at this

/-- The key that a text writes. -/
def read (s : String) : Except Fault DataKey :=
  let owner := s.toList.takeWhile (· != ':')
  let name := s.toList.drop (owner.length + 1)
  if ho : owner = [] then .error (.key (.notNamespaced s))
  else if hn : name = [] then .error (.key (.notNamespaced s))
  else .ok ⟨owner, name, ho, colon_not_mem_takeWhile _, hn⟩

/-- The name that a value stands for, which is empty for whatever counts as false. -/
def nameOf (v : Value) : String :=
  if v.truthy then v.plainText else ""

/-- The key of what stands for an owner and what stands for a name. An owner that is no text must still have no colon
among its members. -/
def ofValues (owner name : Value) : Except Fault DataKey := do
  if !owner.truthy then throw (.value (.dataNamespace owner))
  if (← owner.members).any (·.same (.text ":")) then throw (.value (.dataNamespace owner))
  if !name.truthy then throw (.value .emptyField)
  read (owner.plainText ++ ":" ++ name.plainText)

/-- The key that a value writes, which has to be a text. -/
def ofValue : Value → Except Fault DataKey
  | .text s => read s
  | v => .error (.key (.notText v.typeName))

end DataKey

/-- A map from keys to values that keeps the order of its entries. -/
structure DataMap where
  entries : List (DataKey × Value)
deriving DecidableEq, Repr

namespace DataMap

instance : Inhabited DataMap := ⟨⟨[]⟩⟩

/-- The map without entries. -/
def empty : DataMap :=
  ⟨[]⟩

/-- The entries with their keys as they are written. -/
def toList (m : DataMap) : List (String × Value) :=
  m.entries.map fun (k, v) => (k.text, v)

/-- The value of a key. -/
def get? (m : DataMap) (k : DataKey) : Option Value :=
  m.entries.lookup k

/-- Sets the value of a key among entries: in its place when the key is there, at the end otherwise. -/
def insertEntry (k : DataKey) (v : Value) : List (DataKey × Value) → List (DataKey × Value)
  | [] => [(k, v)]
  | entry :: entries => if entry.1 = k then (k, v) :: entries else entry :: insertEntry k v entries

/-- The map with the value of a key set. -/
def insert (m : DataMap) (k : DataKey) (v : Value) : DataMap :=
  ⟨insertEntry k v m.entries⟩

/-- The map without a key. -/
def erase (m : DataMap) (k : DataKey) : DataMap :=
  ⟨m.entries.filter fun entry => entry.1 ≠ k⟩

/-- The fault of looking up what is not a key of the map. -/
def missing (key : Value) : Fault :=
  match key with
  | .list _ | .map _ => .mistyped
  | _ => .key (.missing key)

/-- The value of what may be a key. -/
def find (m : DataMap) (key : Value) : Except Fault Value :=
  match key with
  | .text s =>
    match (m.toList.lookup s) with
    | some v => .ok v
    | none => .error (missing key)
  | _ => .error (missing key)

/-- The map with the value of what should be a key set. -/
def set (m : DataMap) (key v : Value) : Except Fault DataMap := do
  return m.insert (← DataKey.ofValue key) v

/-- The map without what may be a key. -/
def remove (m : DataMap) (key : Value) : Except Fault DataMap :=
  match DataKey.ofValue key with
  | .ok k => if (m.get? k).isSome then .ok (m.erase k) else .error (missing key)
  | .error _ => .error (missing key)

/-- The map with entries set one after the other, up to the first whose key is none, and its fault. -/
def update (m : DataMap) : List (Value × Value) → DataMap × Option Fault
  | [] => (m, none)
  | (key, v) :: rest =>
    match m.set key v with
    | .ok m => update m rest
    | .error fault => (m, some fault)

/-- The map with the entries of a map set, or of what stands for one; nothing is set if the value stands for none. -/
def updateFrom (m : DataMap) (given : Value) : DataMap × Option Fault :=
  match given.entries with
  | .ok entries => m.update entries
  | .error fault => (m, some fault)

/-- The value of a key after it was set where it had none. -/
def setDefault (m : DataMap) (key v : Value) : Except Fault (Value × DataMap) := do
  let k ← DataKey.ofValue key
  match m.get? k with
  | some v => return (v, m)
  | none => return (v, m.insert k v)

/-- The owners that have a key in the map, each once. -/
def owners (m : DataMap) : List String :=
  (m.entries.map fun (k, _) => String.ofList k.owner).eraseDups

/-! ### Views

A view shows the entries of one owner by their names alone. -/

/-- The owner that a value stands for, if it can be one. -/
def ownerOf (owner : Value) : Except Fault String := do
  let _ ← DataKey.ofValues owner (.text "_")
  return owner.plainText

/-- The entries of one owner. -/
def view (m : DataMap) (owner : String) : List (String × Value) :=
  m.entries.filterMap fun (k, v) => if k.owner = owner.toList then some (String.ofList k.name, v) else none

/-- The value of a name in a view. -/
def viewFind (m : DataMap) (owner name : String) : Except Fault Value := do
  let k ← DataKey.make owner name
  match m.get? k with
  | some v => return v
  | none => throw (missing (.text k.text))

/-- The map with the value of a name in a view set. -/
def viewSet (m : DataMap) (owner name : String) (v : Value) : Except Fault DataMap := do
  return m.insert (← DataKey.make owner name) v

/-- The map without a name in a view. -/
def viewRemove (m : DataMap) (owner name : String) : Except Fault DataMap := do
  let k ← DataKey.make owner name
  if (m.get? k).isSome then return m.erase k else throw (missing (.text k.text))

/-- Whether a view has a name. -/
def viewHas (m : DataMap) (owner name : String) : Except Fault Bool := do
  return (m.get? (← DataKey.make owner name)).isSome

/-- Takes a name out of a view; a name that is not there has the given value, if any. -/
def viewPop (m : DataMap) (owner name : String) (default? : Option Value) : Except Fault (Value × DataMap) := do
  let k ← DataKey.make owner name
  match m.get? k, default? with
  | some v, _ => return (v, m.erase k)
  | none, some v => return (v, m)
  | none, none => throw (missing (.text k.text))

/-- Takes the first entry out of a view. -/
def viewPopFirst (m : DataMap) (owner : String) : Except Fault ((String × Value) × DataMap) :=
  match m.view owner with
  | [] => .error (.key .emptyView)
  | (name, v) :: _ => do return ((name, v), ← m.viewRemove owner name)

/-- The value of a name in a view after it was set where it had none. -/
def viewSetDefault (m : DataMap) (owner name : String) (v : Value) : Except Fault (Value × DataMap) := do
  let k ← DataKey.make owner name
  match m.get? k with
  | some v => return (v, m)
  | none => return (v, m.insert k v)

/-- The map with entries of a view set one after the other, up to the first that is none or has no name, and its
fault. -/
def viewUpdate (m : DataMap) (owner : String) : List (Except Fault (Value × Value)) → DataMap × Option Fault
  | [] => (m, none)
  | .error fault :: _ => (m, some fault)
  | .ok (name, v) :: rest =>
    match m.viewSet owner (DataKey.nameOf name) v with
    | .ok m => viewUpdate m owner rest
    | .error fault => (m, some fault)

/-- The map with the entries of a map set in a view, or of what stands for one. -/
def viewUpdateFrom (m : DataMap) (owner : String) (given : Value) : DataMap × Option Fault :=
  match given.pairs with
  | .ok pairs => m.viewUpdate owner pairs
  | .error fault => (m, some fault)

/-- The map without the entries of one owner. -/
def viewClear (m : DataMap) (owner : String) : DataMap :=
  ⟨m.entries.filter fun entry => entry.1.owner ≠ owner.toList⟩

/-- A view as messages show it. -/
def viewLiteral (m : DataMap) (owner : String) : String :=
  "ScopedData(" ++ Text.quote owner ++ ", " ++ (Value.record (m.view owner)).literal ++ ")"

end DataMap

end MarkdownTree
