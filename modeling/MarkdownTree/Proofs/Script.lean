import MarkdownTree.Proofs.Passage

/-!
# Visits by a script

Graphs that are told by the kinds of their nodes and their rows (`Graph.sketch`), and visitors each call of which leaves
the next graph of a script, wherever it is made (`Visitor.scripted`).  What a call from one sketch to another one edits can
be read off the rows.
-/

namespace MarkdownTree

namespace Graph

/-- A node of a kind with a row of children, if it is a parent, and with nothing else. -/
def sketchCell (kind : Kind) (row : List NodeId) : Cell :=
  ⟨kind, [], if kind.isParent then .items (row.map .node) else .none, none, .empty⟩

/-- The graph whose nodes are of the given kinds and have the given rows. -/
def sketch (rows : List (Kind × List NodeId)) : Graph :=
  ⟨(rows.map fun r => sketchCell r.1 r.2).toArray⟩

variable {rows rows' : List (Kind × List NodeId)} {n : NodeId} {kind : Kind} {row : List NodeId}

theorem cell?_sketch : (sketch rows).cell? n = rows[n]?.map fun r => sketchCell r.1 r.2 := by
  rw [cell?, sketch, List.getElem?_toArray, List.getElem?_map]

private theorem cell?_sketch_of_lt (h : n < rows.length) : (sketch rows).cell? n = some
    (sketchCell rows[n].1 rows[n].2) := by
  rw [cell?_sketch, List.getElem?_eq_getElem h]
  rfl

theorem size_sketch : (sketch rows).size = rows.length := by
  rw [size, sketch, List.size_toArray, List.length_map]

private theorem items_sketchCell : (sketchCell kind row).items = (sketchCell kind row).childIds.map .node := by
  have hfilter : (row.map Item.node).filterMap Item.id? = row := by
    rw [List.filterMap_map]
    exact List.filterMap_some
  unfold Cell.childIds Cell.items sketchCell
  cases kind.isParent with
  | false => rfl
  | true =>
    show row.map Item.node = ((row.map Item.node).filterMap Item.id?).map Item.node
    rw [hfilter]

private theorem children_sketchCell (h : kind.isParent = true) : (sketchCell kind row).children = .items
    (row.map .node) :=
  if_pos h

theorem items_sketch : (sketch rows).items n = ((sketch rows).childIds n).map .node := by
  unfold items childIds
  rw [cell?_sketch]
  cases rows[n]? with
  | none => rfl
  | some r => exact items_sketchCell

theorem childIds_sketch (h : rows[n]? = some (kind, row)) (hkind : kind.isParent = true) :
    (sketch rows).childIds n = row := by
  have hitems : (sketch rows).items n = row.map .node := by
    rw [items, cell?_sketch, h]
    show (if kind.isParent then (sketchCell kind row).children.toList else []) = _
    rw [if_pos hkind, children_sketchCell hkind]
    rfl
  rw [items_sketch] at hitems
  exact List.map_injective_iff.2 (fun _ _ => Item.node.inj) hitems

theorem stray?_sketch : (sketch rows).stray? n = none := by
  rw [stray?, cell?_sketch]
  cases rows[n]? with
  | none => rfl
  | some r =>
    show (if r.1.isParent then (sketchCell r.1 r.2).children.stray? else none) = none
    split
    · rename_i h
      rw [children_sketchCell h]
      rfl
    · rfl

theorem isTree_sketch (hnodes : ∀ m : Nat, m ∈ (sketch rows).preorder n → m < rows.length)
    (hnodup : ((sketch rows).preorder n).Nodup) : (sketch rows).IsTree n where
  nodes m hm := ⟨_, cell?_sketch_of_lt (hnodes m hm), fun h => ⟨_, children_sketchCell h⟩⟩
  nodup := hnodup

/-- Where rows stay, the nodes stay as they are; the test is for a kind, and looks at nothing else. -/
private theorem spares_sketch {name : String} {p : NodeId → Prop} (h : ∀ n < rows.length, p n → rows'[n]? = rows[n]?) :
    Spares (.kind name) (sketch rows) (sketch rows') p := by
  have hcell : ∀ n c, p n → (sketch rows).cell? n = some c → (sketch rows').cell? n = some c := by
    intro n c hn hc
    rw [cell?_sketch] at hc ⊢
    obtain ⟨r, hr, rfl⟩ := Option.map_eq_some_iff.1 hc
    rw [h n (List.getElem?_eq_some_iff.1 hr).1 hn, hr]
    rfl
  refine ⟨fun n hn c hc => ⟨c, hcell n c hn hc, rfl, rfl⟩, fun n hends hall => ?_⟩
  obtain ⟨c, hc⟩ := hends.cell?
  rw [passes, passes, kind?, kind?, hc, hcell n c (hall n mem_preorder_self) hc]

end Graph

/-- A call from one sketch to another one that differs in the row of its node only. -/
theorem Call.edits_sketch {name : String} {id : NodeId} {seat : Option Seat} {rows rows' : List (Kind × List NodeId)}
    (hrows : ∀ n < rows.length, seat.map Seat.parent ≠ some n → rows'[n]? = rows[n]?)
    (hseat : ∀ q, seat = some q → q.parent < rows'.length)
    (htrees : ∀ n ∈ Call.fresh ⟨id, seat, .sketch rows, .sketch rows', .ok .proceed⟩, (Graph.sketch rows').IsTree n) :
    Call.Edits ⟨id, seat, .sketch rows, .sketch rows', .ok .proceed⟩ (.kind name) where
  proceeds := rfl
  spares := Graph.spares_sketch hrows
  items q hq := ⟨⟨_, Graph.cell?_sketch_of_lt (hseat q hq)⟩, Graph.items_sketch⟩
  trees := htrees

/-- A visitor that answers each call by going on, and leaves the next graph of a script. -/
def Visitor.scripted (script : Nat → Graph) (test : NodeTest) (backwards : Bool) : Visitor Nat where
  graph := script
  test := test
  backwards := backwards
  callback _ _ k := .ok .proceed (k + 1)

end MarkdownTree
