import Mathlib.Data.List.Chain
import Mathlib.Data.List.Nodup
import Mathlib.Data.List.NodupEquivFin
import Mathlib.Order.WellFounded
import MarkdownTree.Proofs.Validity

/-!
# Pruned trees

A tree is pruned by taking the nodes of some kinds out of it, with what is below them.  In a graph this changes the lists
of children of the nodes that are left and nothing else (`Graph.Prunes`); what is left unfolds to the pruned draft
(`Graph.Prunes.unfoldTo`), and a tree that keeps the rules of validation still does so (`Graph.Prunes.issues_eq_nil`).
-/

namespace MarkdownTree

/-! ### What is left of a tree -/

namespace Draft

mutual

/-- The draft without the nodes of some kinds below its root, and without what is below these. -/
def prune (kinds : List Kind) : Draft → Draft
  | node kind fields place children id => node kind fields place (pruneList kinds children) id
  | other v => other v

/-- A row of drafts without the nodes of some kinds. -/
def pruneList (kinds : List Kind) : List Draft → List Draft
  | [] => []
  | t :: ts => if t.kind?.any kinds.contains then pruneList kinds ts else prune kinds t :: pruneList kinds ts

end

end Draft

/-- The cell without those of its children that are selected. -/
def Cell.without (drop : NodeId → Bool) (c : Cell) : Cell :=
  if c.kind.isParent then
    match c.children with
    | .items xs => { c with children := .items (xs.filter fun x => !x.id?.any drop) }
    | _ => c
  else c

namespace Graph

variable (g : Graph)

/-- The node is of one of some kinds. -/
def selects (kinds : List Kind) (id : NodeId) : Bool :=
  (g.kind? id).any kinds.contains

/-- All that stands in the tree below a node is a node, parents have lists of children, and no node stands in two
places. -/
structure IsTree (top : NodeId) : Prop where
  nodes : ∀ id ∈ g.preorder top, ∃ c, g.cell? id = some c ∧
    (c.kind.isParent = true → ∃ ids : List NodeId, c.children = .items (ids.map .node))
  nodup : (g.preorder top).Nodup

/-- The tree below a node has at most so many layers, and all that stands in it is a node. -/
def EndsWithin : Nat → NodeId → Prop
  | 0, _ => False
  | depth + 1, id => ∃ c, g.cell? id = some c ∧ c.items = c.childIds.map .node ∧
      (c.kind.isParent = true → c.children = .items (c.childIds.map .node)) ∧
      ∀ child ∈ c.childIds, EndsWithin depth child

/-- The nodes of a tree that are left without those of some kinds and what is below these. -/
def keptTo (kinds : List Kind) : Nat → NodeId → List NodeId
  | 0, _ => []
  | depth + 1, id =>
    id :: ((g.childIds id).filter fun child => !g.selects kinds child).flatMap (keptTo kinds depth)

/-- The second graph is the first with the cells of some nodes pruned. -/
def Prunes (g g' : Graph) (kinds : List Kind) (ids : List NodeId) : Prop :=
  ∀ i, g'.cell? i = if i ∈ ids then (g.cell? i).map (Cell.without (g.selects kinds)) else g.cell? i

end Graph

/-! ### Cells -/

namespace Cell

variable {c : Cell} {drop : NodeId → Bool}

@[simp] theorem without_kind : (c.without drop).kind = c.kind := by
  unfold without
  split
  · split <;> rfl
  · rfl

@[simp] theorem without_fields : (c.without drop).fields = c.fields := by
  unfold without
  split
  · split <;> rfl
  · rfl

@[simp] theorem without_position : (c.without drop).position = c.position := by
  unfold without
  split
  · split <;> rfl
  · rfl

private theorem without_items : (c.without drop).items = c.items.filter fun x => !x.id?.any drop := by
  unfold without items
  by_cases hparent : c.kind.isParent = true
  · rw [if_pos hparent, if_pos hparent]
    cases hchildren : c.children <;> simp [hparent, hchildren, Slot.toList]
  · rw [if_neg hparent, if_neg hparent]
    simp

theorem setItems_items (hparent : c.kind.isParent = true) (xs : List Item) : (c.setItems xs).items = xs :=
  if_pos hparent

theorem without_setItems (hparent : c.kind.isParent = true) {ids : List NodeId}
    (h : c.children = .items (ids.map .node)) :
    c.setItems ((ids.filter fun child => !drop child).map .node) = c.without drop := by
  rw [without, if_pos hparent, h]
  dsimp only
  rw [List.filter_map, setItems]
  rfl

private theorem items_eq (h : c.kind.isParent = true → ∃ ids : List NodeId, c.children = .items (ids.map .node)) :
    c.items = c.childIds.map .node ∧ (c.kind.isParent = true → c.children = .items (c.childIds.map .node)) := by
  by_cases hparent : c.kind.isParent = true
  · obtain ⟨ids, hids⟩ := h hparent
    have hitems : c.items = ids.map .node := by rw [Cell.items, if_pos hparent, hids]; rfl
    have hchild : c.childIds = ids := by
      rw [Cell.childIds, hitems, List.filterMap_map]
      exact List.filterMap_some
    rw [hchild]
    exact ⟨hitems, fun _ => hids⟩
  · have hitems : c.items = [] := if_neg hparent
    have hchild : c.childIds = [] := by rw [Cell.childIds, hitems]; rfl
    rw [hitems, hchild]
    exact ⟨rfl, fun h => absurd h hparent⟩

private theorem without_childIds : (c.without drop).childIds = c.childIds.filter fun child => !drop child := by
  unfold childIds
  rw [without_items]
  induction c.items with
  | nil => rfl
  | cons x xs ih =>
    cases x with
    | value v =>
      have hv : (Item.value v).id? = none := rfl
      simpa [List.filter_cons, hv] using ih
    | node id =>
      have hn : (Item.node id).id? = some id := rfl
      cases hid : drop id <;> simpa [List.filter_cons, hn, hid] using ih

private theorem without_stray : (c.without drop).children.stray? = c.children.stray? := by
  unfold without
  split
  · split
    · rename_i h
      rw [h]
      rfl
    · rfl
  · rfl

private theorem without_items_of_nodes (h : c.items = c.childIds.map .node) :
    (c.without drop).items = (c.without drop).childIds.map .node := by
  rw [without_childIds, without_items, h, List.filter_map]
  rfl

end Cell

namespace Graph

variable {g g' : Graph} {kinds : List Kind} {depth : Nat} {id : NodeId} {c : Cell}

theorem cell?_modify (f : Cell → Cell) (i : NodeId) :
    (g.modify id f).cell? i = if id = i then (g.cell? i).map f else g.cell? i :=
  Array.getElem?_modify

theorem items_of_cell? (h : g.cell? id = some c) : g.items id = c.items := by
  rw [items, h]
  rfl

theorem childIds_of_cell? (h : g.cell? id = some c) : g.childIds id = c.childIds := by
  rw [childIds, h]
  rfl

theorem selects_of_cell? {i : NodeId} {g' : Graph} (h : g'.cell? i = g.cell? i) :
    g'.selects kinds i = g.selects kinds i := by
  rw [selects, selects, kind?, kind?, h]

theorem preorderTo_of_cell? (h : g.cell? id = some c) :
    g.preorderTo (depth + 1) id = id :: c.childIds.flatMap (g.preorderTo depth) := by
  rw [preorderTo, childIds_of_cell? h]

theorem keptTo_of_cell? (h : g.cell? id = some c) :
    g.keptTo kinds (depth + 1) id =
      id :: (c.childIds.filter fun child => !g.selects kinds child).flatMap (g.keptTo kinds depth) := by
  rw [keptTo, childIds_of_cell? h]

theorem keptTo_sublist (depth : Nat) (id : NodeId) : (g.keptTo kinds depth id).Sublist (g.preorderTo depth id) := by
  induction depth generalizing id with
  | zero => exact List.Sublist.refl []
  | succ depth ih =>
    refine List.Sublist.cons_cons id ?_
    have hrow (ids : List NodeId) : ((ids.filter fun child => !g.selects kinds child).flatMap
        (g.keptTo kinds depth)).Sublist (ids.flatMap (g.preorderTo depth)) := by
      induction ids with
      | nil => exact List.Sublist.refl []
      | cons child ids ihids =>
        rw [List.flatMap_cons]
        by_cases hchild : g.selects kinds child = true
        · rw [List.filter_cons_of_neg (by simp [hchild])]
          exact ihids.trans (List.sublist_append_right _ _)
        · rw [List.filter_cons_of_pos (by simpa using hchild), List.flatMap_cons]
          exact (ih child).append ihids
    exact hrow _

private theorem endsWithin_of_nodup : ∀ {depth : Nat} {id : NodeId} (seen : List NodeId),
    (seen ++ g.preorderTo depth id).Nodup →
    (∀ m ∈ seen ++ g.preorderTo depth id, ∃ c, g.cell? m = some c ∧
      (c.kind.isParent = true → ∃ ids : List NodeId, c.children = .items (ids.map .node))) →
    g.size < depth + seen.length → g.EndsWithin depth id
  | 0, id, seen, hnodup, hnodes, hsize => by
    have hroom : g.Room 0 seen := by
      refine ⟨(List.nodup_append.1 hnodup).1, fun m hm => ?_, hsize⟩
      obtain ⟨c, hc, -⟩ := hnodes m (List.mem_append_left _ hm)
      exact lt_size_of_cell? hc
    exact absurd hroom.fuel_pos (Nat.lt_irrefl 0)
  | depth + 1, id, seen, hnodup, hnodes, hsize => by
    obtain ⟨c, hc, hchildren⟩ := hnodes id (List.mem_append_right _ List.mem_cons_self)
    rw [preorderTo_of_cell? hc] at hnodup hnodes
    obtain ⟨hitems, hparent⟩ := Cell.items_eq hchildren
    refine ⟨c, hc, hitems, hparent, fun child hchild => ?_⟩
    have hsub : (g.preorderTo depth child).Sublist (c.childIds.flatMap (g.preorderTo depth)) :=
      List.sublist_flatten_of_mem (List.mem_map_of_mem hchild)
    have hsub' : (id :: seen ++ g.preorderTo depth child).Sublist
        (id :: (seen ++ c.childIds.flatMap (g.preorderTo depth))) := (hsub.append_left seen).cons_cons id
    refine endsWithin_of_nodup (id :: seen) ((List.perm_middle.nodup_iff.1 hnodup).sublist hsub')
      (fun m hm => hnodes m (List.perm_middle.mem_iff.2 (hsub'.subset hm))) ?_
    rw [List.length_cons]
    omega

theorem IsTree.endsWithin {top : NodeId} (h : g.IsTree top) : g.EndsWithin (g.size + 1) top :=
  endsWithin_of_nodup [] h.nodup h.nodes (by simp)

private theorem mem_preorderTo_of_stands {path : List Nat} {n : NodeId} : ∀ {depth : Nat} {id : NodeId},
    g.EndsWithin depth id → g.Stands id path n c → n ∈ g.preorderTo depth id := by
  intro depth id hends h
  induction h generalizing depth with
  | here hc =>
    cases depth with
    | zero => exact hends.elim
    | succ depth => exact List.mem_cons_self
  | @inside top d i child path n c hd hchild _ ih =>
    cases depth with
    | zero => exact hends.elim
    | succ depth =>
      obtain ⟨d', hd', -, -, hbelow⟩ := hends
      cases hd.symm.trans hd'
      have hmem : child ∈ d.childIds := List.mem_filterMap.2 ⟨_, List.mem_of_getElem? hchild, rfl⟩
      rw [preorderTo_of_cell? hd]
      exact List.mem_cons_of_mem _ (List.mem_flatMap.2 ⟨_, hmem, ih (hbelow _ hmem)⟩)

/-- Where every node is listed once, every node stands in one place. -/
private theorem stands_unique {n : NodeId} {d : Cell} : ∀ {depth : Nat} {id : NodeId} {p q : List Nat},
    g.EndsWithin depth id → (g.preorderTo depth id).Nodup → g.Stands id p n c → g.Stands id q n d → p = q
  | 0, _, _, _, hends, _, _, _ => hends.elim
  | depth + 1, id, p, q, hends, hnodup, hp, hq => by
    obtain ⟨e, he, hitems, -, hbelow⟩ := hends
    rw [preorderTo_of_cell? he] at hnodup
    obtain ⟨hid, hrows⟩ := List.nodup_cons.1 hnodup
    obtain ⟨hnodups, hapart⟩ := List.nodup_flatMap.1 hrows
    have hinside {i : Nat} {child : NodeId} {r : List Nat} {f : Cell} (hchild : e.items[i]? = some (.node child))
        (hr : g.Stands child r n f) : e.childIds[i]? = some child ∧ n ∈ g.preorderTo depth child := by
      have hi : e.childIds[i]? = some child := by
        rw [hitems, List.getElem?_map] at hchild
        cases hget : e.childIds[i]? <;> simp_all
      exact ⟨hi, mem_preorderTo_of_stands (hbelow child (List.mem_of_getElem? hi)) hr⟩
    have hself {i : Nat} {child : NodeId} (hchild : e.childIds[i]? = some child) : id ∉ g.preorderTo depth child :=
      fun hmem => hid (List.mem_flatMap.2 ⟨child, List.mem_of_getElem? hchild, hmem⟩)
    cases hp with
    | here hc =>
      cases hq with
      | here => rfl
      | inside hd hchild hr =>
        cases hd.symm.trans he
        obtain ⟨hi, hmem⟩ := hinside hchild hr
        exact (hself hi hmem).elim
    | @inside _ _ i child r _ _ hd hchild hr =>
      cases hd.symm.trans he
      obtain ⟨hi, hmem⟩ := hinside hchild hr
      cases hq with
      | here => exact (hself hi hmem).elim
      | @inside _ _ j child' r' _ _ hd' hchild' hr' =>
        cases hd'.symm.trans he
        obtain ⟨hj, hmem'⟩ := hinside hchild' hr'
        have hij : i = j := by
          by_contra hne
          obtain ⟨hlt, rfl⟩ := List.getElem?_eq_some_iff.1 hi
          obtain ⟨hlt', rfl⟩ := List.getElem?_eq_some_iff.1 hj
          rw [List.pairwise_iff_getElem] at hapart
          rcases Nat.lt_or_gt_of_ne hne with h | h
          · exact hapart _ _ hlt hlt' h hmem hmem'
          · exact hapart _ _ hlt' hlt h hmem' hmem
        subst hij
        cases hi.symm.trans hj
        have hchildMem := List.mem_of_getElem? hi
        rw [stands_unique (hbelow _ hchildMem) (hnodups _ hchildMem) hr hr']

/-! ### What is left -/

/-- The items that stay keep their order: none comes to stand later than it stood. -/
private theorem exists_le_getElem? {α : Type} {p : α → Bool} {xs : List α} {i : Nat} {x : α}
    (h : (xs.filter p)[i]? = some x) : p x = true ∧ ∃ j, i ≤ j ∧ xs[j]? = some x := by
  refine ⟨(List.mem_filter.1 (List.mem_of_getElem? h)).2, ?_⟩
  obtain ⟨f, hf⟩ := List.sublist_iff_exists_orderEmbedding_getElem?_eq.1 (List.filter_sublist (p := p) (l := xs))
  exact ⟨f i, f.strictMono.le_apply, (hf i).symm.trans h⟩

namespace Prunes

variable {ids : List NodeId}

private theorem kind? (h : g.Prunes g' kinds ids) (i : NodeId) : g'.kind? i = g.kind? i := by
  rw [Graph.kind?, Graph.kind?, h i]
  split
  · rw [Option.map_map]
    congr 1
    funext c
    exact Cell.without_kind
  · rfl

theorem position (h : g.Prunes g' kinds ids) (i : NodeId) :
    (g'.cell? i).bind Cell.position = (g.cell? i).bind Cell.position := by
  rw [h i]
  split
  · cases g.cell? i with
    | none => rfl
    | some c => exact Cell.without_position
  · rfl

theorem size (h : g.Prunes g' kinds ids) : g'.size = g.size := by
  have hlt (i : Nat) : g'.size ≤ i ↔ g.size ≤ i := by
    have hkind := h.kind? i
    unfold Graph.kind? Graph.cell? at hkind
    unfold Graph.size
    rw [← Array.getElem?_eq_none_iff, ← Array.getElem?_eq_none_iff, ← Option.map_eq_none_iff (f := Cell.kind), hkind,
      Option.map_eq_none_iff]
  exact Nat.le_antisymm ((hlt _).2 (Nat.le_refl _)) ((hlt _).1 (Nat.le_refl _))

private theorem cell? (h : g.Prunes g' kinds ids) (hc : g.cell? id = some c) (hid : id ∈ ids) :
    g'.cell? id = some (c.without (g.selects kinds)) := by
  rw [h id, if_pos hid, hc]
  rfl

/-- Of the nodes that are left below a node, those below a child that stays are some. -/
private theorem keptTo_subset {child : NodeId} (hc : g.cell? id = some c) (hids : g.keptTo kinds (depth + 1) id ⊆ ids)
    (hchild : child ∈ c.childIds) (hkeep : g.selects kinds child = false) : g.keptTo kinds depth child ⊆ ids := by
  intro i hi
  refine hids ?_
  rw [keptTo_of_cell? hc]
  exact List.mem_cons_of_mem _
    (List.mem_flatMap.2 ⟨child, List.mem_filter.2 ⟨hchild, by rw [hkeep]; rfl⟩, hi⟩)

private theorem mem_of_keptTo (hids : g.keptTo kinds (depth + 1) id ⊆ ids) : id ∈ ids :=
  hids List.mem_cons_self

theorem preorderTo (h : g.Prunes g' kinds ids) : ∀ {depth : Nat} {id : NodeId}, g.EndsWithin depth id →
    g.keptTo kinds depth id ⊆ ids → g'.preorderTo depth id = g.keptTo kinds depth id
  | 0, _, _, _ => rfl
  | depth + 1, id, hends, hids => by
    obtain ⟨c, hc, -, -, hbelow⟩ := hends
    rw [preorderTo_of_cell? (h.cell? hc (mem_of_keptTo hids)), keptTo_of_cell? hc, Cell.without_childIds]
    congr 1
    refine List.flatMap_congr fun child hchild => ?_
    obtain ⟨hmem, hkeep⟩ := List.mem_filter.1 hchild
    exact h.preorderTo (hbelow child hmem) (keptTo_subset hc hids hmem (by simpa using hkeep))

private theorem endsWithin (h : g.Prunes g' kinds ids) : ∀ {depth : Nat} {id : NodeId}, g.EndsWithin depth id →
    g.keptTo kinds depth id ⊆ ids → g'.EndsWithin depth id
  | 0, _, hends, _ => hends
  | depth + 1, id, hends, hids => by
    obtain ⟨c, hc, hitems, hparent, hbelow⟩ := hends
    refine ⟨_, h.cell? hc (mem_of_keptTo hids), Cell.without_items_of_nodes hitems, fun hkind => ?_, fun child hchild => ?_⟩
    · rw [Cell.without_kind] at hkind
      rw [Cell.without_childIds, ← Cell.without_setItems hkind (hparent hkind), Cell.setItems]
    · rw [Cell.without_childIds] at hchild
      obtain ⟨hmem, hkeep⟩ := List.mem_filter.1 hchild
      exact h.endsWithin (hbelow child hmem) (keptTo_subset hc hids hmem (by simpa using hkeep))

/-- What is left is the draft of the tree, pruned. -/
theorem unfoldTo (h : g.Prunes g' kinds ids) : ∀ {depth : Nat} {id : NodeId}, g.EndsWithin depth id →
    g.keptTo kinds depth id ⊆ ids → g'.unfoldTo depth (.node id) = (g.unfoldTo depth (.node id)).prune kinds
  | 0, _, _, _ => rfl
  | depth + 1, id, hends, hids => by
    obtain ⟨c, hc, hitems, -, hbelow⟩ := hends
    have hrow (row : List NodeId) (hrow : row ⊆ c.childIds) :
        ((row.filter fun child => !g.selects kinds child).map .node).map (g'.unfoldTo depth) =
          Draft.pruneList kinds ((row.map .node).map (g.unfoldTo depth)) := by
      induction row with
      | nil => rfl
      | cons child row ih =>
        have hmem : child ∈ c.childIds := hrow List.mem_cons_self
        have hrest := ih fun i hi => hrow (List.mem_cons_of_mem _ hi)
        have hkind : (g.unfoldTo depth (.node child)).kind?.any kinds.contains = g.selects kinds child := by
          cases depth with
          | zero => exact (hbelow child hmem).elim
          | succ depth =>
            obtain ⟨d, hd, -⟩ := hbelow child hmem
            simp only [Graph.unfoldTo, hd, selects, Graph.kind?]
            rfl
        rw [List.map_cons, List.map_cons, Draft.pruneList, hkind]
        cases hkeep : g.selects kinds child with
        | true => rw [List.filter_cons_of_neg (by simp [hkeep]), hrest]; rfl
        | false =>
          rw [List.filter_cons_of_pos (by simp [hkeep]), List.map_cons, List.map_cons, hrest,
            h.unfoldTo (hbelow child hmem) (keptTo_subset hc hids hmem hkeep)]
          rfl
    simp only [Graph.unfoldTo, hc, h.cell? hc (mem_of_keptTo hids)]
    rw [Cell.without_items_of_nodes hitems, Cell.without_childIds, hrow c.childIds (List.Subset.refl _), hitems]
    simp only [Cell.without_kind, Cell.without_fields, Cell.without_position, Cell.without_stray, Draft.prune]

/-- What stands in the pruned tree stands in the tree, and is that cell pruned. -/
theorem stands (h : g.Prunes g' kinds ids) {q : List Nat} {n : NodeId} {d : Cell} (hq : g'.Stands id q n d) :
    ∀ {depth : Nat}, g.EndsWithin depth id → g.keptTo kinds depth id ⊆ ids →
      ∃ p c, g.Stands id p n c ∧ (p = [] ↔ q = []) ∧ d = c.without (g.selects kinds) := by
  induction hq with
  | @here id d hd =>
    intro depth hends hids
    cases depth with
    | zero => exact hends.elim
    | succ depth =>
      obtain ⟨c, hc, -⟩ := hends
      rw [h.cell? hc (mem_of_keptTo hids)] at hd
      exact ⟨[], c, .here hc, Iff.rfl, (Option.some.inj hd).symm⟩
  | @inside id d i child q n e hd hchild _ ih =>
    intro depth hends hids
    cases depth with
    | zero => exact hends.elim
    | succ depth =>
      obtain ⟨c, hc, -, -, hbelow⟩ := hends
      rw [h.cell? hc (mem_of_keptTo hids)] at hd
      cases hd
      rw [Cell.without_items] at hchild
      obtain ⟨hkeep, j, -, hj⟩ := exists_le_getElem? hchild
      have hmem : child ∈ c.childIds := List.mem_filterMap.2 ⟨_, List.mem_of_getElem? hj, rfl⟩
      have hkeep' : g.selects kinds child = false := by simpa [Item.id?] using hkeep
      obtain ⟨p, d, hp, -, hd⟩ := ih (hbelow child hmem) (keptTo_subset hc hids hmem hkeep')
      exact ⟨j :: p, d, .inside hc hj hp, by simp, hd⟩

private theorem proper (h : g.Prunes g' kinds ids) (hc : g.Proper c) : g'.Proper (c.without (g.selects kinds)) where
  value := by
    have hvalue := hc.value
    rwa [Cell.without_kind, Cell.field?, Cell.without_fields]
  children := by
    have hchildren := hc.children
    rw [Cell.without_kind]
    split
    · rename_i hparent
      rw [if_pos hparent] at hchildren
      obtain ⟨xs, hxs, hnodes⟩ := hchildren
      refine ⟨xs.filter fun x => !x.id?.any (g.selects kinds), ?_, fun x hx => hnodes x (List.mem_filter.1 hx).1⟩
      rw [Cell.without, if_pos hparent, hxs]
    · rename_i hparent
      rw [if_neg hparent] at hchildren
      rw [Cell.without, if_neg hparent, hchildren]
  holds := by
    intro i child d hchild hd
    rw [Cell.without_items] at hchild
    obtain ⟨-, j, hij, hj⟩ := exists_le_getElem? hchild
    have hkind := h.kind? child
    rw [Graph.kind?, Graph.kind?, hd] at hkind
    obtain ⟨e, he, hde⟩ := Option.map_eq_some_iff.1 hkind.symm
    have hholds := hc.holds hj he
    rw [hde] at hholds
    rw [Cell.without_kind]
    -- Front matter that stood first still does.
    exact ⟨fun hfront => ⟨(hholds.frontMatter hfront).1, Nat.le_zero.1 (hij.trans_eq (hholds.frontMatter hfront).2)⟩,
      hholds.items, hholds.blocks, hholds.inlines, hholds.links⟩

private theorem childPositions_sublist (h : g.Prunes g' kinds ids) (c : Cell) :
    (g'.childPositions (c.without (g.selects kinds))).Sublist (g.childPositions c) := by
  have hposition : (fun i => (g'.cell? i).bind Cell.position) = fun i => (g.cell? i).bind Cell.position :=
    funext h.position
  rw [childPositions, childPositions, Cell.without_childIds, hposition]
  exact List.filter_sublist.filterMap _

private theorem nests (h : g.Prunes g' kinds ids) (hordered : ∀ p ∈ g.childPositions c, p.Ordered) (hc : g.Nests c) :
    g'.Nests (c.without (g.selects kinds)) where
  inside := by
    intro q hq p hp
    rw [Cell.without_position] at hq
    exact hc.inside q hq p ((h.childPositions_sublist c).subset hp)
  apart := by
    -- Positions that follow each other and do not end before they begin all lie apart, not only the neighbours.
    have hchain : (g.childPositions c).IsChain fun p q =>
        p.start.offset ≤ p.stop.offset ∧ p.stop.offset ≤ q.start.offset :=
      List.IsChain.imp_of_mem_imp (fun p q hp _ hpq => ⟨hordered p hp, hpq⟩) hc.apart
    have : IsTrans Position fun p q : Position =>
        p.start.offset ≤ p.stop.offset ∧ p.stop.offset ≤ q.start.offset := ⟨fun p q r hpq hqr => ⟨hpq.1, by omega⟩⟩
    exact ((List.isChain_iff_pairwise.1 hchain).sublist (h.childPositions_sublist c)).isChain.imp fun p q hpq => hpq.2

/-- A tree that keeps the rules keeps them when it is pruned. -/
theorem issues_eq_nil (h : g.Prunes g' kinds (g.keptTo kinds (g.size + 1) id)) (htree : g.IsTree id)
    (hordered : ∀ {i c p}, g.cell? i = some c → c.position = some p → p.Ordered) {positions : Bool}
    (hissues : g.issues positions id = []) : g'.issues positions id = [] := by
  obtain ⟨hshape, hlaid⟩ := issues_eq_nil_iff.1 hissues
  have hends := htree.endsWithin
  have hnodup : (g'.preorderTo (g.size + 1) id).Nodup := by
    rw [h.preorderTo hends (List.Subset.refl _)]
    exact htree.nodup.sublist (keptTo_sublist _ _)
  have hpositions {c : Cell} : ∀ p ∈ g.childPositions c, p.Ordered := by
    intro p hp
    obtain ⟨i, -, hi⟩ := List.mem_filterMap.1 hp
    obtain ⟨d, hd, hdp⟩ := Option.bind_eq_some_iff.1 hi
    exact hordered hd hdp
  refine issues_eq_nil_iff.2 ⟨⟨fun hq => ?_, fun hq => ?_, stands_unique (h.endsWithin hends (List.Subset.refl _)) hnodup⟩,
    fun hon _ _ _ hq => ?_⟩ <;> obtain ⟨p, c, hp, hpq, rfl⟩ := h.stands hq hends (List.Subset.refl _)
  · rw [Cell.without_kind, ← hpq]
    exact hshape.root hp
  · exact h.proper (hshape.proper hp)
  · exact h.nests hpositions (hlaid hon hp)

end Prunes

end Graph

end MarkdownTree
