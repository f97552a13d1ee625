import MarkdownTree.Graph

/-!
# Edits of children

Changes of a list of children, each at an index. Nothing is removed or replaced where nothing stands; what is inserted
beyond an end comes to stand at that end.
-/

namespace MarkdownTree

/-- A change of a list of children. -/
inductive ChildEdit where
  | insert (index : Int) (item : Item)
  | remove (index : Int)
  | replace (index : Int) (item : Item)
  | clear
  | reverse
deriving DecidableEq, Repr

/-- The children after a change. -/
def ChildEdit.apply (e : ChildEdit) (items : List Item) : List Item :=
  match e with
  | insert index item =>
    let k := (min (max index 0) items.length).toNat
    items.take k ++ item :: items.drop k
  | remove index => if 0 ≤ index then items.eraseIdx index.toNat else items
  | replace index item => if 0 ≤ index then items.set index.toNat item else items
  | clear => []
  | reverse => items.reverse

/-- The graph with the children of a node changed. -/
def Graph.editChildren (g : Graph) (id : NodeId) (e : ChildEdit) : Graph :=
  g.modifyItems id fun items => e.apply items

end MarkdownTree
