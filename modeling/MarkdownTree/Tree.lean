import MarkdownTree.Kind

/-!
# Document trees

A tree says what a document contains. Its nodes carry notes of a type of choice (offsets, positions, nothing), and two
trees have the same structure when they are equal once the notes are erased.
-/

namespace MarkdownTree

/-- What a node says apart from its children. -/
inductive Content where
  | root
  | frontMatter (value : String)
  | heading (depth : Int)
  | paragraph
  | codeBlock (value : String) (lang details : Option String)
  | blockQuote
  | list (ordered : Bool) (start : Option Int) (spread : Bool)
  | listItem (spread : Bool) (checked : Option Bool)
  | thematicBreak
  | text (value : String)
  | emphasis
  | strong
  | inlineCode (value : String)
  | link (destination : String) (title : Option String)
  | image (destination alt : String) (title : Option String)
  | lineBreak
deriving DecidableEq, Repr, Inhabited

/-- The kind of a node with the given content. -/
def Content.kind : Content → Kind
  | .root => .root
  | .frontMatter _ => .frontMatter
  | .heading _ => .heading
  | .paragraph => .paragraph
  | .codeBlock .. => .codeBlock
  | .blockQuote => .blockQuote
  | .list .. => .list
  | .listItem .. => .listItem
  | .thematicBreak => .thematicBreak
  | .text _ => .text
  | .emphasis => .emphasis
  | .strong => .strong
  | .inlineCode _ => .inlineCode
  | .link .. => .link
  | .image .. => .image
  | .lineBreak => .lineBreak

/-- A node with its children; every node carries a note of type `α`. -/
inductive Tree (α : Type u) where
  | node (note : α) (content : Content) (children : List (Tree α))
deriving Repr

namespace Tree

variable {α : Type u} {β : Type v} {γ : Type w}

/-- What the node says. -/
def content : Tree α → Content
  | node _ content _ => content

/-- The note on the node. -/
def note : Tree α → α
  | node note _ _ => note

/-- The node's children. -/
def children : Tree α → List (Tree α)
  | node _ _ children => children

/-- The node's kind. -/
def kind (t : Tree α) : Kind :=
  t.content.kind

mutual

/-- The tree with every note changed by a function. -/
def map (f : α → β) : Tree α → Tree β
  | node note content children => node (f note) content (mapList f children)

/-- Every tree of a list with its notes changed. -/
def mapList (f : α → β) : List (Tree α) → List (Tree β)
  | [] => []
  | t :: ts => map f t :: mapList f ts

end

theorem mapList_eq_map (f : α → β) (ts : List (Tree α)) : mapList f ts = ts.map (map f) := by
  induction ts with
  | nil => rfl
  | cons t ts ih => simp [mapList, ih]

/-- The structure of a tree: the tree without its notes. -/
def erase (t : Tree α) : Tree Unit :=
  t.map fun _ => ()

mutual

/-- Equality of trees, given one of notes. -/
def eq [BEq α] : Tree α → Tree α → Bool
  | node m c ss, node n d ts => m == n && c == d && eqList ss ts

/-- Equality of lists of trees. -/
def eqList [BEq α] : List (Tree α) → List (Tree α) → Bool
  | [], [] => true
  | s :: ss, t :: ts => eq s t && eqList ss ts
  | _, _ => false

end

mutual

theorem eq_iff [BEq α] [LawfulBEq α] : ∀ s t : Tree α, eq s t = true ↔ s = t
  | node m c ss, node n d ts => by simp [eq, eqList_iff ss, and_assoc]

theorem eqList_iff [BEq α] [LawfulBEq α] : ∀ ss ts : List (Tree α), eqList ss ts = true ↔ ss = ts
  | [], ts => by cases ts <;> simp [eqList]
  | s :: ss, ts => by cases ts <;> simp [eqList, eq_iff s, eqList_iff ss]

end

instance [DecidableEq α] : DecidableEq (Tree α) := fun s t => decidable_of_iff (eq s t = true) (eq_iff s t)

mutual

/-- The node and all nodes below it, in document order. -/
def preorder : Tree α → List (Tree α)
  | t@(node _ _ children) => t :: preorderList children

/-- The nodes of a list of trees, in document order. -/
def preorderList : List (Tree α) → List (Tree α)
  | [] => []
  | t :: ts => preorder t ++ preorderList ts

end

/-- The number of nodes. -/
def size (t : Tree α) : Nat :=
  t.preorder.length

end Tree

end MarkdownTree
