import MarkdownTree.Draft
import MarkdownTree.Value.Json

/-!
# Serialized trees

A tree as a plain value: a map with the node's kind, its fields, its children and its position. As JSON text it also
says which version of this layout it follows. Decoding accepts fields in any order and leaves their types alone.
-/

namespace MarkdownTree

/-- The value of a mark. -/
def Mark.encode (m : Mark) : Value :=
  .record [("line", m.line), ("column", m.column), ("offset", m.offset)]

/-- The value of a place. -/
def Place.encode (p : Place) : Value :=
  .record [("start", p.start.encode), ("end", p.stop.encode)]

/-- The mark that a value describes: it has these three entries and no other. -/
def Mark.decode? (v : Value) : Option Mark := do
  let line ← v.get? "line"
  let column ← v.get? "column"
  let offset ← v.get? "offset"
  if v.fields.length = 3 then some ⟨line, column, offset⟩ else none

mutual

/-- Whether one offset comes before another, if they can be compared. -/
def Value.before? : Value → Value → Option Bool
  | .text a, .text b => some (a < b)
  | .list as, .list bs => Value.listBefore? as bs
  | a, b => do return (← a.size?).below (← b.size?)

/-- Whether one list comes before another: the first items that differ tell. -/
def Value.listBefore? : List Value → List Value → Option Bool
  | _, [] => some false
  | [], _ :: _ => some true
  | a :: as, b :: bs => if a.same b then Value.listBefore? as bs else a.before? b

end

/-- The place that a value describes; it does not end before it starts. -/
def Place.decode? (v : Value) : Option Place := do
  let start ← Mark.decode? (← v.get? "start")
  let stop ← Mark.decode? (← v.get? "end")
  if ← stop.offset.before? start.offset then none else some ⟨start, stop⟩

namespace Draft

mutual

/-- A tree as a plain value, in which places are written as a function says. -/
def encodeWith (position : Place → Option Value) : Draft → Except Fault Value
  | node kind fields place children _ => do
    checkChildren kind fields
    let inner ← encodeList position children
    let entry := fun name =>
      (name, if name = "children" then Value.list inner else fieldOf fields name)
    let position := ((place.bind position).map fun v => ("position", v)).toList
    return .record (("kind", .text kind.name) :: kind.fieldNames.map entry ++ position)
  | other _ => .error .field

/-- Trees as plain values. -/
def encodeList (position : Place → Option Value) : List Draft → Except Fault (List Value)
  | [] => .ok []
  | t :: ts => do
    let v ← encodeWith position t
    let vs ← encodeList position ts
    return v :: vs

end

/-- A tree as a plain value, with or without positions. -/
def encode (places : Bool) : Draft → Except Fault Value :=
  encodeWith fun p => if places then some p.encode else none

/-- The version of the layout. -/
def layoutVersion : Value :=
  .int 1

/-- A tree as JSON text. -/
def toJson (layout : Value.Json.Layout) (places : Bool) (t : Draft) : Except Fault String := do
  match ← t.encode places with
  | .map entries => return Value.Json.write layout (.map ((.text "schema_version", layoutVersion) :: entries))
  | v => return Value.Json.write layout v

/-- What the entries of a node say. -/
structure Parts where
  given : List Field
  place : Option Place
  children : Option (List Draft)

/-- The parts of a node after one more entry, its children apart. -/
def Parts.add (kind : Kind) (key : String) (value : Value) (parts : Parts) : Except Fault Parts :=
  if key = "kind" ∨ key = "schema_version" ∨ key = "data" then .ok parts
  else if key = "children" then .error (.decode (.childrenNotList kind))
  else if key = "position" then
    if value = .null then .ok { parts with place := none }
    else
      match Place.decode? value with
      | some place => .ok { parts with place := some place }
      | none => .error (.decode (.position value))
  else .ok { parts with given := parts.given ++ [(key, value)] }

/-- The node of a kind with the given parts. -/
def Parts.make (kind : Kind) (parts : Parts) : Except Fault Draft :=
  if parts.children.isSome && !kind.isParent then .error (.construct kind .mistyped)
  else (Draft.make kind parts.given parts.place (parts.children.getD [])).mapError (.construct kind)

/-- The kind that a serialized node names. -/
def decodeKind (name : Value) : Except Fault Kind :=
  (kindOf name).mapError fun
    | .key (.unknownKind name) => .decode (.unknownKind name)
    | fault => fault

mutual

/-- The tree that a plain value describes. -/
def decode : Value → Except Fault Draft
  | .map entries =>
    match (Value.map entries).get? "kind" with
    | none => .error (.decode (.notNode "dict"))
    | some name => do
      let kind ← decodeKind name
      (← decodeEntries kind ⟨[], none, none⟩ entries).make kind
  | v => .error (.decode (.notNode v.typeName))

/-- The parts of a node after the rest of its entries. -/
def decodeEntries (kind : Kind) (parts : Parts) : List (Value × Value) → Except Fault Parts
  | [] => .ok parts
  | (.text "children", .list items) :: rest => do
    let children ← decodeList items
    decodeEntries kind { parts with children := some children } rest
  | (.text key, value) :: rest => do
    decodeEntries kind (← parts.add kind key value) rest
  | _ :: _ => .error (.construct kind .mistyped)

/-- The trees that plain values describe. -/
def decodeList : List Value → Except Fault (List Draft)
  | [] => .ok []
  | v :: vs => do
    let t ← decode v
    let ts ← decodeList vs
    return t :: ts

end

/-- The tree that a JSON text describes. -/
def ofJson (s : String) : Except Fault Draft :=
  match Value.Json.read? s with
  | none => .error (.decode .notJson)
  | some (.map entries) =>
    let version := (Value.map entries).get? "schema_version"
    match version with
    | none | some .null => decode (.map entries)
    | some v => if Value.same v layoutVersion then decode (.map entries) else .error (.decode (.version v))
  | some _ => .error (.decode .notObject)

end Draft

end MarkdownTree
