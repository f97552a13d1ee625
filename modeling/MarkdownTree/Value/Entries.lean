import MarkdownTree.Fault

/-!
# Entries

What stands for the entries of a map where a caller has no map to give: a row of pairs. Any row will do, also a text,
which is a row of characters, and so will any row of two for a pair.
-/

namespace MarkdownTree.Value

/-- What a value is made of when it is gone through: the items of a list, the keys of a map, the characters of a
text. -/
def members? : Value → Option (List Value)
  | .list items => some items
  | .map entries => some (entries.map (·.1))
  | .text s => some (s.toList.map fun c => .text c.toString)
  | _ => none

/-- The members of a value; a value that has none cannot be gone through. -/
def members (v : Value) : Except Fault (List Value) :=
  match v.members? with
  | some vs => .ok vs
  | none => .error .mistyped

/-- The entry that the item of a row stands for, where the row stands for a map. -/
def entryAt (index : Nat) (item : Value) : Except Fault (Value × Value) := do
  match ← item.members with
  | [key, v] => if key.isKey then return (key, v) else throw .mistyped
  | vs => throw (.value (.pairSize index vs.length))

/-- The entries that the items of a row stand for, from the given index on. -/
def entriesFrom (index : Nat) : List Value → Except Fault (List (Value × Value))
  | [] => .ok []
  | item :: items => do
    let entry ← entryAt index item
    let entries ← entriesFrom (index + 1) items
    return entry :: entries

/-- The entries of a map, or of what stands for one: of a key that comes twice, the last value. -/
def entries (v : Value) : Except Fault (List (Value × Value)) :=
  match v with
  | .map es => .ok es
  | v => do return (← entriesFrom 0 (← v.members)).foldl (fun map entry => insertEntry entry.1 entry.2 map) []

/-- The two parts of an item that is taken apart. -/
def halves (item : Value) : Except Fault (Value × Value) := do
  match ← item.members with
  | [a, b] => return (a, b)
  | vs => throw (.value (.parts vs.length))

/-- The entries of a map, or of what stands for one, each of which may turn out to be none. -/
def pairs (v : Value) : Except Fault (List (Except Fault (Value × Value))) :=
  match v with
  | .map es => .ok (es.map .ok)
  | v => do return (← v.members).map halves

end MarkdownTree.Value
