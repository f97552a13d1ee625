import MarkdownTree.Fault
import MarkdownTree.Position

/-!
# Drafts

A draft is a node whose fields need not have the types that its kind asks for, as it comes out of serialized trees and
of callers. Making one checks only what the kind insists on: which fields there are, the depth of a heading, the start
of a list.
-/

namespace MarkdownTree

/-- A place in a source text as it was given. -/
structure Mark where
  line : Value
  column : Value
  offset : Value
deriving DecidableEq, Repr

/-- The mark of a point. -/
def Mark.ofPoint (p : Point) : Mark :=
  ⟨.int p.line, .int p.column, .int p.offset⟩

/-- The point that a mark stands for. -/
def Mark.point? (m : Mark) : Option Point := do
  return ⟨← m.line.integer?, ← m.column.integer?, ← m.offset.integer?⟩

theorem Mark.point?_ofPoint (p : Point) : (Mark.ofPoint p).point? = some p := rfl

/-- The span between two marks. -/
structure Place where
  start : Mark
  stop : Mark
deriving DecidableEq, Repr

/-- The place of a position. -/
def Place.ofPosition (p : Position) : Place :=
  ⟨.ofPoint p.start, .ofPoint p.stop⟩

/-- The position that a place stands for. -/
def Place.position? (p : Place) : Option Position := do
  return ⟨← p.start.point?, ← p.stop.point?⟩

/-- Equality of marks by what their parts stand for. -/
def Mark.same (m n : Mark) : Bool :=
  m.line.same n.line && m.column.same n.column && m.offset.same n.offset

/-- Equality of places, or of having none. -/
def Place.sameOption : Option Place → Option Place → Bool
  | some p, some q => p.start.same q.start && p.stop.same q.stop
  | none, none => true
  | _, _ => false

theorem Place.position?_ofPosition (p : Position) : (Place.ofPosition p).position? = some p := rfl

/-- A field with its name. -/
abbrev Field :=
  String × Value

/-- A node with its fields in the order of its kind, its place, its children and its identity, if it has one, or
something else that stands where a node should. Where something other than a list stands in the place of the children of
a parent, it is a field like others, and there are no children. -/
inductive Draft where
  | node (kind : Kind) (fields : List Field) (place : Option Place) (children : List Draft) (id : Option Nat)
  | other (v : Value)
deriving Repr, Inhabited

/-- The fields of a kind, its children apart, with their defaults. -/
def Kind.defaults : Kind → List Field
  | .frontMatter | .text | .inlineCode => [("value", .text "")]
  | .heading => [("depth", .int 1)]
  | .codeBlock => [("value", .text ""), ("lang", .null), ("meta", .null)]
  | .list => [("ordered", .bool false), ("start", .null), ("spread", .bool false)]
  | .listItem => [("spread", .bool false), ("checked", .null)]
  | .link => [("destination", .text ""), ("title", .null)]
  | .image => [("destination", .text ""), ("alt", .text ""), ("title", .null)]
  | _ => []

/-- The value of a field, which is null where there is none. -/
def fieldOf (fields : List Field) (name : String) : Value :=
  (fields.lookup name).getD .null

/-- The fields with one of them changed. -/
def setField (name : String) (value : Value) (fields : List Field) : List Field :=
  fields.map fun field => if field.1 = name then (name, value) else field

theorem setField_names (name : String) (v : Value) (fields : List Field) :
    (setField name v fields).map (·.1) = fields.map (·.1) := by
  rw [setField, List.map_map]
  refine List.map_congr_left fun field _ => ?_
  by_cases h : field.1 = name
  · simp [h]
  · simp [h]

theorem lookup_setField (name : String) (v : Value) {fields : List Field} (h : name ∈ fields.map (·.1)) :
    (setField name v fields).lookup name = some v := by
  induction fields with
  | nil => cases h
  | cons field fields ih =>
    obtain ⟨key, w⟩ := field
    by_cases hkey : key = name
    · subst hkey
      simp [setField]
    · have hrest := ih ((List.mem_cons.1 h).resolve_left (Ne.symm hkey))
      have hne : (name == key) = false := beq_false_of_ne (Ne.symm hkey)
      simpa [setField, List.lookup_cons, hkey, hne] using hrest

theorem lookup_setField_ne {name other : String} (hne : other ≠ name) (v : Value) (fields : List Field) :
    (setField name v fields).lookup other = fields.lookup other := by
  induction fields with
  | nil => rfl
  | cons field fields ih =>
    obtain ⟨key, w⟩ := field
    have hrest : (setField name v fields).lookup other = fields.lookup other := ih
    by_cases hkey : key = name
    · subst hkey
      have hother : (other == key) = false := beq_false_of_ne hne
      simpa [setField, List.lookup_cons, hother] using hrest
    · by_cases hother : other = key
      · subst hother
        simp [setField, hkey]
      · have hother : (other == key) = false := beq_false_of_ne hother
        simpa [setField, List.lookup_cons, hkey, hother] using hrest

namespace Draft

/-- The kind of a node. -/
def kind? : Draft → Option Kind
  | node kind .. => some kind
  | other _ => none

/-- The fields of a node. -/
def fields : Draft → List Field
  | node _ fields .. => fields
  | other _ => []

/-- The fields of a node other than its value and its children. -/
def attributes : Draft → List Field
  | node kind fields .. => kind.attributeNames.map fun name => (name, fieldOf fields name)
  | other _ => []

/-- The place of a node. -/
def place : Draft → Option Place
  | node _ _ place .. => place
  | other _ => none

/-- The children of a node. -/
def children : Draft → List Draft
  | node _ _ _ children _ => children
  | other _ => []

/-- What stands in the place of the children of a parent. -/
def stray? (kind : Kind) (fields : List Field) : Option Value :=
  if kind.isParent then fields.lookup "children" else none

/-- Fails if a value cannot be gone through as a row of nodes. An empty one can. -/
def checkRow : Value → Except Fault Unit
  | .list vs => if vs.isEmpty then .ok () else .error .field
  | .text s => if s.isEmpty then .ok () else .error .field
  | .map es => if es.isEmpty then .ok () else .error .field
  | _ => .error .mistyped

/-- Fails if a value cannot be gone through as a row of nodes with a look at the node that follows. The entries of a
map cannot be found by their indices. -/
def checkSiblings : Value → Except Fault Unit
  | .map (_ :: _ :: _) => .error (.key (.missing (.int 1)))
  | v => checkRow v

/-- How many members stand in the place of children. -/
def rowLength : Value → Except Fault Nat
  | .list vs => .ok vs.length
  | .text s => .ok s.length
  | .map es => .ok es.length
  | _ => .error .mistyped

/-- Fails if the children of a node cannot be gone through. -/
def checkChildren (kind : Kind) (fields : List Field) : Except Fault Unit :=
  match stray? kind fields with
  | some v => checkRow v
  | none => .ok ()

/-- The number of a node's children. -/
def childCount : Draft → Except Fault Nat
  | node kind fields _ children _ =>
    match stray? kind fields with
    | some v => rowLength v
    | none => .ok children.length
  | other _ => .error .field

/-! ### Making -/

/-- The depth of a heading lies between one and six. -/
def checkDepth (fields : List Field) : Except Fault (List Field) :=
  let depth := fieldOf fields "depth"
  match depth.size? with
  | none => .error .mistyped
  | some d =>
    if (Size.ofInt 1).upTo d && d.upTo (.ofInt 6) then .ok fields else .error (.value (.depth depth))

/-- An ordered list starts somewhere, at one by default; an unordered list does not. -/
def checkStart (fields : List Field) : Except Fault (List Field) :=
  let ordered := (fieldOf fields "ordered").truthy
  let start := fieldOf fields "start"
  if start = .null then
    .ok (if ordered then setField "start" (.int 1) fields else fields)
  else if !ordered then .error (.value .unorderedStart)
  else
    match start.size? with
    | none => .error .mistyped
    | some n => if n.below (.ofInt 0) then .error (.value (.negativeStart start)) else .ok fields

/-- What a kind insists on. -/
def check (kind : Kind) (fields : List Field) : Except Fault (List Field) :=
  match kind with
  | .heading => checkDepth fields
  | .list => checkStart fields
  | _ => .ok fields

/-- The fields of a node of a kind, where those that are not given have their defaults. -/
def fieldsFor (kind : Kind) (given : List Field) : Except Fault (List Field) :=
  if given.all fun field => (kind.defaults.lookup field.1).isSome then
    check kind (given.foldl (fun fields field => setField field.1 field.2 fields) kind.defaults)
  else .error .mistyped

/-- A node of a kind with the given fields. -/
def make (kind : Kind) (given : List Field) (place : Option Place) (children : List Draft) : Except Fault Draft := do
  return .node kind (← fieldsFor kind given) place children none

/-- The kind of a name. -/
def kindOf (name : Value) : Except Fault Kind :=
  match name with
  | .text s =>
    match Kind.ofName? s with
    | some kind => .ok kind
    | none => .error (.key (.unknownKind name))
  | .list _ | .map _ => .error .mistyped
  | _ => .error (.key (.unknownKind name))

/-- The node that holds a text. -/
def ofText (s : String) : Draft :=
  node .text [("value", .text s)] none [] none

/-- The child that a caller gives: a text stands for a node that holds it. -/
def ofIngredient : Draft → Draft
  | other (.text s) => ofText s
  | t => t

/-- Makes a node of the kind with the given name. Parents take any number of children, literal kinds one text as their
value, and other kinds nothing. A plain value is no position. -/
def build (name : Value) (ingredients : List Draft) (given : List Field) : Except Fault Draft := do
  if given.any fun field => field.1 == "kind" then throw .mistyped
  let kind ← kindOf name
  let others := given.filter fun field => field.1 != "data" && field.1 != "position"
  let node ←
    if kind.isParent then
      make kind (others.filter fun field => field.1 != "children") none (ingredients.map ofIngredient)
    else
      match ingredients with
      | [] => make kind others none []
      | [other (.text s)] =>
        if kind.isLiteral then make kind (others.filter (·.1 != "value") ++ [("value", .text s)]) none []
        else throw (.type (.leafChildren kind))
      | _ => throw (.type (if kind.isLiteral then .literalChildren kind else .leafChildren kind))
  if fieldOf given "position" = .null then return node else throw .field

/-! ### Reading -/

/-- The values of the fields that a kind asks for, and of what stands in the place of its children. -/
def values (kind : Kind) (fields : List Field) : List Value :=
  kind.defaults.map (fun field => fieldOf fields field.1) ++ (stray? kind fields).toList

mutual

/-- Equality of what nodes say, whatever their places. -/
def same : Draft → Draft → Bool
  | node k fs _ cs _, node l gs _ ds _ =>
    k == l && Value.sameList (values k fs) (values l gs) && sameList cs ds
  | other v, other w => v.same w
  | _, _ => false

/-- `same` for lists, node by node. -/
def sameList : List Draft → List Draft → Bool
  | [], [] => true
  | c :: cs, d :: ds => same c d && sameList cs ds
  | _, _ => false

end

mutual

/-- The node and all nodes below it, in document order. -/
def preorder : Draft → List Draft
  | t@(node _ _ _ children _) => t :: preorderList children
  | t => [t]

/-- The nodes of a list of drafts, in document order. -/
def preorderList : List Draft → List Draft
  | [] => []
  | t :: ts => preorder t ++ preorderList ts

end

mutual

/-- Fails if something that is no node stands in a tree. -/
def requireNodes : Draft → Except Fault Unit
  | node kind fields _ children _ => do
    checkChildren kind fields
    requireNodesList children
  | other _ => .error .field

/-- Fails if something that is no node stands in a list of trees. -/
def requireNodesList : List Draft → Except Fault Unit
  | [] => .ok ()
  | t :: ts => do
    requireNodes t
    requireNodesList ts

end

/-- Whether two rows of nodes have the same places, up to the first that have not. -/
def samePlaces : List Draft → List Draft → Except Fault Bool
  | s :: ss, t :: ts =>
    match s, t with
    | node k fs p _ _, node _ _ q _ _ => do
      if !Place.sameOption p q then return false
      checkChildren k fs
      samePlaces ss ts
    | _, _ => .error .field
  | _, _ => .ok true

/-- Equality of what nodes say and of the places of all their nodes. -/
def samePlaced (s t : Draft) : Except Fault Bool :=
  if same s t then samePlaces s.preorder t.preorder else .ok false

/-- A field as messages show it. -/
def fieldText (fields : List Field) (children : String) (name : String) : String :=
  name ++ "=" ++ (if name = "children" then children else (fieldOf fields name).literal)

mutual

/-- A node as messages show it. -/
def literal : Draft → String
  | node kind fields _ children _ =>
    let inner := match stray? kind fields with
      | some v => v.literal
      | none => "[" ++ ", ".intercalate (literals children) ++ "]"
    kind.typeName ++ "(" ++ ", ".intercalate (kind.fieldNames.map (fieldText fields inner)) ++ ")"
  | other v => v.literal

/-- Nodes as messages show them. -/
def literals : List Draft → List String
  | [] => []
  | t :: ts => literal t :: literals ts

end

/-- Texts put together with a joiner between neighbours; nothing but texts can be. -/
def joinTexts (joiner : String) (parts : List Value) : Except Fault Value := do
  let texts ← parts.mapM fun
    | .text s => .ok s
    | _ => .error .mistyped
  return .text (joiner.intercalate texts)

mutual

/-- The plain text of a value: the texts of the items of a list, all of which have to be lists in their turn. A text is
made of texts without end. -/
def plainValue (joiner : String) : Value → Except Fault Value
  | .list vs => do joinTexts joiner (← plainValues joiner vs)
  | .map es => do joinTexts joiner (← plainKeys joiner es)
  | .text s => if s.isEmpty then .ok (.text "") else .error .endless
  | _ => .error .mistyped

/-- The plain texts of the values of a list. -/
def plainValues (joiner : String) : List Value → Except Fault (List Value)
  | [] => .ok []
  | v :: vs => do
    let value ← plainValue joiner v
    let values ← plainValues joiner vs
    return value :: values

/-- The plain texts of the keys of a map. -/
def plainKeys (joiner : String) : List (Value × Value) → Except Fault (List Value)
  | [] => .ok []
  | (v, _) :: es => do
    let value ← plainValue joiner v
    let values ← plainKeys joiner es
    return value :: values

end

mutual

/-- The plain text of a node: its value, the alternative text of an image, or what its children say. -/
def plain (joiner : String) : Draft → Except Fault Value
  | node kind fields _ children _ =>
    if kind.isLiteral then .ok (fieldOf fields "value")
    else if kind = .image then .ok (fieldOf fields "alt")
    else
      match stray? kind fields with
      | some v => plainValue joiner v
      | none => do joinTexts joiner (← plains joiner children)
  | other v => plainValue joiner v

/-- The plain text of each node of a list. -/
def plains (joiner : String) : List Draft → Except Fault (List Value)
  | [] => .ok []
  | t :: ts => do
    let value ← plain joiner t
    let values ← plains joiner ts
    return value :: values

end

/-- The plain text of a row of nodes. -/
def plainOf (joiner : String) (ts : List Draft) : Except Fault Value := do
  joinTexts joiner (← plains joiner ts)

end Draft

end MarkdownTree
