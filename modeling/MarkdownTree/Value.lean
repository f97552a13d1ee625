import MarkdownTree.Number.Floating
import MarkdownTree.Text.Quoted

/-!
# Plain values

The values that node fields, plugin options and data maps hold: what JSON and front matter can write, with maps whose
keys may be any value and keep their order. Two equalities are at work: `==` tells all values apart, while `same`
compares numbers of every type by size and maps without regard to order.
-/

namespace MarkdownTree

/-- A plain value. -/
inductive Value where
  | null
  | bool (b : Bool)
  | int (n : Int)
  | float (x : Floating)
  | text (s : String)
  | list (items : List Value)
  | map (entries : List (Value × Value))
deriving Repr, Inhabited

namespace Value

mutual

/-- Equality that tells all values apart. -/
def eq : Value → Value → Bool
  | .null, .null => true
  | .bool a, .bool b => a == b
  | .int a, .int b => a == b
  | .float a, .float b => a == b
  | .text a, .text b => a == b
  | .list a, .list b => eqList a b
  | .map a, .map b => eqEntries a b
  | _, _ => false

/-- Equality of lists of values, item by item. -/
def eqList : List Value → List Value → Bool
  | [], [] => true
  | a :: as, b :: bs => eq a b && eqList as bs
  | _, _ => false

/-- Equality of map entries, in order. -/
def eqEntries : List (Value × Value) → List (Value × Value) → Bool
  | [], [] => true
  | (k, a) :: as, (l, b) :: bs => eq k l && eq a b && eqEntries as bs
  | _, _ => false

end

mutual

theorem eq_iff : ∀ a b : Value, eq a b = true ↔ a = b
  | .null, b => by cases b <;> simp [eq]
  | .bool _, b => by cases b <;> simp [eq]
  | .int _, b => by cases b <;> simp [eq]
  | .float _, b => by cases b <;> simp [eq]
  | .text _, b => by cases b <;> simp [eq]
  | .list a, b => by cases b <;> simp [eq, eqList_iff a]
  | .map a, b => by cases b <;> simp [eq, eqEntries_iff a]

theorem eqList_iff : ∀ as bs : List Value, eqList as bs = true ↔ as = bs
  | [], bs => by cases bs <;> simp [eqList]
  | a :: as, bs => by cases bs <;> simp [eqList, eq_iff a, eqList_iff as]

theorem eqEntries_iff : ∀ as bs : List (Value × Value), eqEntries as bs = true ↔ as = bs
  | [], bs => by cases bs <;> simp [eqEntries]
  | (k, a) :: as, bs => by
    rcases bs with _ | ⟨⟨l, b⟩, bs⟩ <;> simp [eqEntries, eq_iff k, eq_iff a, eqEntries_iff as]

end

instance : DecidableEq Value := fun a b => decidable_of_iff (eq a b = true) (eq_iff a b)

/-- The size of the number that a value stands for; truth values count as one and zero. -/
def size? : Value → Option Size
  | .bool b => some (.ofInt (if b then 1 else 0))
  | .int n => some (.ofInt n)
  | .float x => some x.size
  | _ => none

/-- The integer a value stands for where a count is wanted. -/
def integer? : Value → Option Int
  | .bool b => some (if b then 1 else 0)
  | .int n => some n
  | _ => none

/-- Equality of numbers by size; other values are no numbers. -/
def sameNumber (a b : Value) : Bool :=
  match size? a, size? b with
  | some m, some n => m.same n
  | _, _ => false

/-- The sum of two numbers, if they are numbers; whole numbers stay whole. -/
def sum? (a b : Value) : Option Value :=
  match integer? a, integer? b with
  | some m, some n => some (.int (m + n))
  | _, _ => do return .float (.ofSum (← size? a) (← size? b))

mutual

/-- Equality by what values stand for: numbers by size, maps without regard to order. -/
def same : Value → Value → Bool
  | .null, .null => true
  | .text a, .text b => a == b
  | .list a, .list b => sameList a b
  | .map a, .map b => a.length == b.length && sameEntries a b
  | a, b => sameNumber a b

/-- `same` for lists, item by item. -/
def sameList : List Value → List Value → Bool
  | [], [] => true
  | a :: as, b :: bs => same a b && sameList as bs
  | _, _ => false

/-- Every entry of the first list stands in the second. -/
def sameEntries : List (Value × Value) → List (Value × Value) → Bool
  | [], _ => true
  | (k, a) :: as, bs => bs.any (fun (l, b) => same k l && same a b) && sameEntries as bs

end

/-- The entry of a key, found by `same`. -/
def lookup? (key : Value) (entries : List (Value × Value)) : Option Value :=
  (entries.find? fun entry => same entry.1 key).map (·.2)

/-- Sets the entry of a key: in its place when the key is there, at the end otherwise. -/
def insertEntry (key value : Value) : List (Value × Value) → List (Value × Value)
  | [] => [(key, value)]
  | entry :: entries =>
    if same entry.1 key then (entry.1, value) :: entries else entry :: insertEntry key value entries

/-- A value can be a key of a map. -/
def isKey : Value → Bool
  | .list _ | .map _ => false
  | _ => true

/-- A map built entry by entry, so the last value of a repeated key wins. -/
def ofEntries (entries : List (Value × Value)) : Value :=
  .map (entries.foldl (fun map entry => insertEntry entry.1 entry.2 map) [])

/-- The value stored under a text key of a map. -/
def get? (v : Value) (key : String) : Option Value :=
  match v with
  | .map entries => lookup? (.text key) entries
  | _ => none

/-- The entries of a map whose keys are texts. -/
def fields (v : Value) : List (String × Value) :=
  match v with
  | .map entries => entries.filterMap fun (k, x) => match k with
    | .text s => some (s, x)
    | _ => none
  | _ => []

/-- A map with text keys. -/
def record (entries : List (String × Value)) : Value :=
  .map (entries.map fun (k, v) => (.text k, v))

/-- Whether a value counts as true: numbers other than zero and anything that is not empty. -/
def truthy : Value → Bool
  | .null => false
  | .bool b => b
  | .int n => n != 0
  | .float x => !x.isZero
  | .text s => !s.isEmpty
  | .list items => !items.isEmpty
  | .map entries => !entries.isEmpty

/-- The name of a value's type in messages. -/
def typeName : Value → String
  | .null => "NoneType"
  | .bool _ => "bool"
  | .int _ => "int"
  | .float _ => "float"
  | .text _ => "str"
  | .list _ => "list"
  | .map _ => "dict"

mutual

/-- A value as messages show it. -/
def literal : Value → String
  | .null => "None"
  | .bool b => if b then "True" else "False"
  | .int n => toString n
  | .float x => x.text
  | .text s => Text.quote s
  | .list items => "[" ++ ", ".intercalate (literals items) ++ "]"
  | .map entries => "\x7b" ++ ", ".intercalate (entryLiterals entries) ++ "\x7d"

/-- The items of a list as messages show them. -/
def literals : List Value → List String
  | [] => []
  | v :: vs => literal v :: literals vs

/-- The entries of a map as messages show them. -/
def entryLiterals : List (Value × Value) → List String
  | [] => []
  | (k, v) :: rest => (literal k ++ ": " ++ literal v) :: entryLiterals rest

end

end Value

end MarkdownTree
