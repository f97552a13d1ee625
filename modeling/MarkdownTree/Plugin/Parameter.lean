import MarkdownTree.Fault

/-!
# Plugin options

What a plugin says of its options: which types of values they take, which values, and what holds when they are not
given.
-/

namespace MarkdownTree

/-- A type that values of options can have. -/
inductive ValueType where
  | int
  | text
  | flag
  | list
  | map
  | float
  | tuple
  | frozenSet
  | set
deriving DecidableEq, Repr

namespace ValueType

/-- Every type. -/
def all : List ValueType :=
  [int, text, flag, list, map, float, tuple, frozenSet, set]

/-- The name of a type in messages. -/
def name : ValueType → String
  | int => "int"
  | text => "str"
  | flag => "bool"
  | list => "list"
  | map => "dict"
  | float => "float"
  | tuple => "tuple"
  | frozenSet => "frozenset"
  | set => "set"

/-- The type of a name. -/
def ofName? (s : String) : Option ValueType :=
  all.find? (·.name == s)

/-- A value has a type; flags also count as integers. No plain value is a tuple or a set. -/
def accepts : ValueType → Value → Bool
  | int, .int _ | int, .bool _ | text, .text _ | flag, .bool _ | list, .list _ | map, .map _ | float, .float _ => true
  | _, _ => false

end ValueType

/-- An option of a plugin. -/
structure Parameter where
  types : List ValueType
  default : Value := .null
  help : String := ""
  choices : Option (List Value) := none
deriving DecidableEq, Repr

/-- Fails unless a value is one that the option takes. -/
def Parameter.check (p : Parameter) (name : String) (v : Value) : Except Fault Unit :=
  if !p.types.any (·.accepts v) then .error (.config (.optionType name (p.types.map ValueType.name) v.typeName))
  else
    match p.choices with
    | some choices =>
      if choices.any (·.same v) then .ok () else .error (.config (.optionChoice name choices v))
    | none => .ok ()

end MarkdownTree
