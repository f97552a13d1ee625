import MarkdownTree.Plugin.RemoveKinds
import MarkdownTree.Proofs.Pruning
import MarkdownTree.Proofs.Waiting

/-!
# Removing kinds prunes

Removing kinds walks a tree and takes nodes out of the lists that the walk goes along.  What is left is the tree without
the nodes of these kinds and what is below them; all other nodes are as they were, and so is the rest of the session
(`RemoveKinds.transform_prunes`).  The walk comes to the end of every list, whatever it takes out of it.
-/

namespace MarkdownTree

open Processor (bind_of_ok)

namespace RemoveKinds

variable {σ : Type} {kinds : List Kind} {s s' : Session σ} {g : Graph} {depth fuel : Nat} {id parent : NodeId}

/-! ### Steps of the walk -/

private theorem get_eq (s : Session σ) : (get : Stage σ (Session σ)) s = .ok s s := rfl

private theorem passes_test (g : Graph) (id : NodeId) :
    g.passes (visitor (σ := σ) kinds).test id = g.selects kinds id := by
  rw [visitor, Graph.passes, Graph.selects]

private theorem walk_removed {i : Nat} (hid : s.graph.selects kinds id = true) :
    (visitor kinds).walk (fuel + 1) (.node id) (some ⟨i, parent⟩) s =
      .ok (.goto i) { s with graph := s.graph.modifyItems parent fun items => items.eraseIdx i } := by
  have hpass : ((visitor (σ := σ) kinds).graph s).passes (visitor (σ := σ) kinds).test id = true :=
    (passes_test s.graph id).trans hid
  rw [Visitor.walk, bind_of_ok (get_eq s)]
  dsimp only
  rw [if_pos hpass]
  rfl

private theorem walk_kept {seat : Option Seat} (hid : s.graph.selects kinds id = false) :
    (visitor kinds).walk (fuel + 1) (.node id) seat s = (visitor kinds).descend fuel (.node id) .next s := by
  have hpass : ((visitor (σ := σ) kinds).graph s).passes (visitor (σ := σ) kinds).test id = false :=
    (passes_test s.graph id).trans hid
  rw [Visitor.walk, bind_of_ok (get_eq s)]
  dsimp only
  rw [if_neg (by rw [hpass]; exact Bool.false_ne_true)]

private theorem descend_of_row (hid : (visitor (σ := σ) kinds).checkItems s.graph id = .ok ())
    (hrow : (visitor kinds).walkFrom fuel id (0 : Nat) s = .ok .next s') :
    (visitor kinds).descend (fuel + 1) (.node id) .next s = .ok .next s' := by
  rw [Visitor.descend, bind_of_ok (get_eq s), show (visitor kinds).graph s = s.graph from rfl, hid]
  dsimp only
  have hstart : (visitor kinds).walkFrom fuel id ((visitor (σ := σ) kinds).firstIndex s.graph id) s = .ok .next s' := hrow
  rw [bind_of_ok (get_eq s), show (visitor kinds).graph s = s.graph from rfl, bind_of_ok hstart]
  rfl

private theorem walkFrom_end {i : Nat} (hi : (s.graph.items id).length ≤ i) :
    (visitor kinds).walkFrom (fuel + 1) id i s = .ok .next s := by
  rw [Visitor.walkFrom, if_neg (by omega), bind_of_ok (get_eq s), show (visitor kinds).graph s = s.graph from rfl,
    Int.toNat_natCast, List.getElem?_eq_none hi]
  rfl

private theorem walkFrom_removed {i : Nat} {child : NodeId} (hitem : (s.graph.items id)[i]? = some (.node child))
    (hwalk : (visitor kinds).walk fuel (.node child) (some ⟨i, id⟩) s = .ok (.goto i) s') :
    (visitor kinds).walkFrom (fuel + 1) id i s = (visitor kinds).walkFrom fuel id i s' := by
  rw [Visitor.walkFrom, if_neg (by omega), bind_of_ok (get_eq s), show (visitor kinds).graph s = s.graph from rfl,
    Int.toNat_natCast, hitem]
  dsimp only
  rw [bind_of_ok hwalk]
  rfl

private theorem walkFrom_kept {i : Nat} {child : NodeId} (hitem : (s.graph.items id)[i]? = some (.node child))
    (hwalk : (visitor kinds).walk fuel (.node child) (some ⟨i, id⟩) s = .ok .next s') :
    (visitor kinds).walkFrom (fuel + 1) id i s = (visitor kinds).walkFrom fuel id (i + 1 : Nat) s' := by
  rw [Visitor.walkFrom, if_neg (by omega), bind_of_ok (get_eq s), show (visitor kinds).graph s = s.graph from rfl,
    Int.toNat_natCast, hitem]
  dsimp only
  rw [bind_of_ok hwalk]
  rfl

private theorem checkItems_of_items {c : Cell} {xs : List Item} (hc : g.cell? id = some c)
    (h : c.kind.isParent = true → c.children = .items xs) :
    (visitor (σ := σ) kinds).checkItems g id = .ok () := by
  have hstray : g.stray? id = none := by
    rw [Graph.stray?, hc]
    show (if c.kind.isParent then c.children.stray? else none) = none
    split
    · rename_i hparent
      rw [h hparent]
      rfl
    · rfl
  rw [Visitor.checkItems, hstray]

/-! ### The walk -/

/-- The walk along the children of a node has come past those that stay, and those that are still to come are as they
were, with all that is below them. -/
structure Underway (g : Graph) (depth : Nat) (id : NodeId) (c : Cell) (past rest : List NodeId) (s : Session σ) :
    Prop where
  ends : ∀ child ∈ rest, g.EndsWithin depth child
  nodup : (id :: rest.flatMap (g.preorderTo depth)).Nodup
  same : ∀ i ∈ rest.flatMap (g.preorderTo depth), s.graph.cell? i = g.cell? i
  cell : s.graph.cell? id = some (c.setItems ((past ++ rest).map .node))

namespace Underway

variable {c : Cell} {past rest : List NodeId} {child : NodeId}

private theorem getElem? (h : Underway g depth id c past (child :: rest) s) (hparent : c.kind.isParent = true) :
    (s.graph.items id)[past.length]? = some (.node child) := by
  rw [Graph.items_of_cell? h.cell, Cell.setItems_items hparent]
  simp

private theorem mem_self (h : Underway g depth id c past (child :: rest) s) : child ∈ g.preorderTo depth child := by
  have hchild := h.ends child (.head _)
  cases depth with
  | zero => cases hchild
  | succ depth => exact List.mem_cons_self

/-- The next child and what is below it are apart from the node and from what comes after them. -/
private theorem apart (h : Underway g depth id c past (child :: rest) s) :
    id ∉ g.preorderTo depth child ∧ (g.preorderTo depth child).Nodup ∧
      (∀ i ∈ rest.flatMap (g.preorderTo depth), i ∉ g.preorderTo depth child) ∧
      (id :: rest.flatMap (g.preorderTo depth)).Nodup := by
  have hnodup := h.nodup
  rw [List.flatMap_cons] at hnodup
  obtain ⟨hnotMem, hboth⟩ := List.nodup_cons.1 hnodup
  obtain ⟨hchild, hrest, hdisjoint⟩ := List.nodup_append.1 hboth
  exact ⟨fun hi => hnotMem (List.mem_append_left _ hi), hchild, fun i hi hmem => hdisjoint i hmem i hi rfl,
    List.nodup_cons.2 ⟨fun hi => hnotMem (List.mem_append_right _ hi), hrest⟩⟩

private theorem same_child (h : Underway g depth id c past (child :: rest) s) :
    ∀ i ∈ g.preorderTo depth child, s.graph.cell? i = g.cell? i :=
  fun i hi => h.same i (List.mem_flatMap.2 ⟨child, .head _, hi⟩)

private theorem same_rest (h : Underway g depth id c past (child :: rest) s) :
    ∀ i ∈ rest.flatMap (g.preorderTo depth), s.graph.cell? i = g.cell? i :=
  fun i hi => h.same i (by rw [List.flatMap_cons]; exact List.mem_append_right _ hi)

/-- Only the list of the node changes when a child is taken out of it. -/
private theorem removed (h : Underway g depth id c past (child :: rest) s) {g' : Graph}
    (hg : g' = s.graph.modifyItems id fun items => items.eraseIdx past.length) :
    Underway g depth id c past rest { s with graph := g' } ∧ ∀ i ≠ id, g'.cell? i = s.graph.cell? i := by
  subst hg
  obtain ⟨-, -, -, hnodup⟩ := h.apart
  have hother (i : NodeId) (hi : i ≠ id) :
      (s.graph.modifyItems id fun items => items.eraseIdx past.length).cell? i = s.graph.cell? i := by
    rw [Graph.modifyItems, Graph.cell?_modify, if_neg hi.symm]
  refine ⟨⟨fun x hx => h.ends x (.tail _ hx), hnodup, fun i hi => ?_, ?_⟩, hother⟩
  · refine (hother i ?_).trans (h.same_rest i hi)
    rintro rfl
    exact (List.nodup_cons.1 hnodup).1 hi
  · show (s.graph.modifyItems id fun items => items.eraseIdx past.length).cell? id = _
    rw [Graph.modifyItems, Graph.cell?_modify, if_pos rfl, h.cell]
    simp [Cell.setItems, Slot.toList, List.eraseIdx_append_of_length_le]

/-- Behind a child that stays, what comes after it is as it was, because only what is below the child has changed. -/
theorem kept (h : Underway g depth id c past (child :: rest) s) {g' : Graph}
    (hcells : ∀ i, g'.cell? i = if i ∈ g.keptTo kinds depth child then (g.cell? i).map (Cell.without (g.selects kinds))
      else s.graph.cell? i) : Underway g depth id c (past ++ [child]) rest { s with graph := g' } := by
  obtain ⟨hnotMem, -, hdisjoint, hnodup⟩ := h.apart
  have hsub : (g.keptTo kinds depth child).Sublist (g.preorderTo depth child) := Graph.keptTo_sublist depth child
  refine ⟨fun x hx => h.ends x (.tail _ hx), hnodup, fun i hi => ?_, ?_⟩
  · show g'.cell? i = _
    rw [hcells, if_neg fun hmem => hdisjoint i hi (hsub.subset hmem)]
    exact h.same_rest i hi
  · show g'.cell? id = _
    rw [hcells, if_neg fun hmem => hnotMem (hsub.subset hmem), h.cell]
    simp

end Underway

/-- The walk along the children of a node that are still to come, given how the tree below each of them is walked. -/
private theorem exists_walkFrom (hwalk : ∀ {child : NodeId} {fuel : Nat} {seat : Option Seat} {s : Session σ},
      g.EndsWithin depth child → (g.preorderTo depth child).Nodup →
      (∀ i ∈ g.preorderTo depth child, s.graph.cell? i = g.cell? i) → g.selects kinds child = false →
      3 * (g.preorderTo depth child).length ≤ fuel →
      ∃ g', (visitor kinds).walk fuel (.node child) seat s = .ok .next { s with graph := g' } ∧
        ∀ i, g'.cell? i = if i ∈ g.keptTo kinds depth child then (g.cell? i).map (Cell.without (g.selects kinds))
          else s.graph.cell? i)
    {c : Cell} (hparent : c.kind.isParent = true) (rest : List NodeId) :
    ∀ (past : List NodeId) (fuel : Nat) (s : Session σ), Underway g depth id c past rest s →
      3 * (rest.flatMap (g.preorderTo depth)).length + 1 ≤ fuel →
      ∃ g', (visitor kinds).walkFrom fuel id past.length s = .ok .next { s with graph := g' } ∧
        g'.cell? id = some (c.setItems ((past ++ rest.filter fun child => !g.selects kinds child).map .node)) ∧
        ∀ i ≠ id, g'.cell? i =
          if i ∈ (rest.filter fun child => !g.selects kinds child).flatMap (g.keptTo kinds depth) then
            (g.cell? i).map (Cell.without (g.selects kinds))
          else s.graph.cell? i := by
  induction rest with
  | nil =>
    intro past fuel s h hfuel
    obtain ⟨fuel, rfl⟩ : ∃ n, fuel = n + 1 := ⟨fuel - 1, by omega⟩
    refine ⟨s.graph, walkFrom_end ?_, h.cell, fun i _ => rfl⟩
    rw [Graph.items_of_cell? h.cell, Cell.setItems_items hparent]
    simp
  | cons child rest ih =>
    intro past fuel s h hfuel
    obtain ⟨fuel, rfl⟩ : ∃ n, fuel = n + 1 := ⟨fuel - 1, by omega⟩
    have hitem := h.getElem? hparent
    have hpos : 0 < (g.preorderTo depth child).length := List.length_pos_of_mem h.mem_self
    have hselect : s.graph.selects kinds child = g.selects kinds child :=
      Graph.selects_of_cell? (h.same_child child h.mem_self)
    rw [List.flatMap_cons, List.length_append] at hfuel
    cases hdrop : g.selects kinds child with
    | true =>
      -- The child goes, and the walk goes on at its index.
      obtain ⟨fuel, rfl⟩ : ∃ n, fuel = n + 1 := ⟨fuel - 1, by omega⟩
      have hstep : (visitor kinds).walk (fuel + 1) (.node child) (some ⟨past.length, id⟩) s = _ :=
        walk_removed (hselect.trans hdrop)
      obtain ⟨hunderway, hother⟩ := h.removed rfl
      obtain ⟨g', hrun, hid, hcells⟩ := ih past (fuel + 1) _ hunderway (by omega)
      rw [List.filter_cons_of_neg (by simp [hdrop])]
      exact ⟨g', (walkFrom_removed hitem hstep).trans hrun, hid, fun i hi => by rw [hcells i hi, hother i hi]⟩
    | false =>
      -- The child stays, and the walk goes on after it.
      obtain ⟨-, hnodup, -, -⟩ := h.apart
      obtain ⟨g₁, hrun₁, hcells₁⟩ := @hwalk child fuel (some ⟨past.length, id⟩) s (h.ends child (.head _)) hnodup
        h.same_child hdrop (by omega)
      obtain ⟨g', hrun, hid, hcells⟩ := ih (past ++ [child]) fuel _ (h.kept hcells₁) (by omega)
      rw [List.length_append, List.length_singleton] at hrun
      rw [List.filter_cons_of_pos (by simp [hdrop])]
      refine ⟨g', (walkFrom_kept hitem hrun₁).trans hrun, by rw [hid]; simp, fun i hi => ?_⟩
      rw [List.flatMap_cons, hcells i hi]
      by_cases hmem : i ∈ g.keptTo kinds depth child
      · rw [if_pos (List.mem_append_left _ hmem), hcells₁, if_pos hmem, ite_self]
      · simp only [List.mem_append, hmem, false_or, hcells₁, if_false]

/-- The walk through the tree below a node that stays. -/
private theorem exists_walk : ∀ (depth : Nat) {id : NodeId} {fuel : Nat} {seat : Option Seat} {s : Session σ},
    g.EndsWithin depth id → (g.preorderTo depth id).Nodup →
    (∀ i ∈ g.preorderTo depth id, s.graph.cell? i = g.cell? i) → g.selects kinds id = false →
    3 * (g.preorderTo depth id).length ≤ fuel →
    ∃ g', (visitor kinds).walk fuel (.node id) seat s = .ok .next { s with graph := g' } ∧
      ∀ i, g'.cell? i = if i ∈ g.keptTo kinds depth id then (g.cell? i).map (Cell.without (g.selects kinds))
        else s.graph.cell? i
  | 0, _, _, _, _, hends, _, _, _, _ => hends.elim
  | depth + 1, id, fuel, seat, s, hends, hnodup, hsame, hid, hfuel => by
    obtain ⟨c, hc, hitems, hchildren, hbelow⟩ := hends
    rw [Graph.preorderTo_of_cell? hc] at hnodup hsame hfuel
    have hcell : s.graph.cell? id = some c := (hsame id List.mem_cons_self).trans hc
    rw [List.length_cons] at hfuel
    obtain ⟨fuel, rfl⟩ : ∃ n, fuel = n + 2 := ⟨fuel - 2, by omega⟩
    rw [walk_kept ((Graph.selects_of_cell? (hsame id List.mem_cons_self)).trans hid)]
    have hcheck : (visitor (σ := σ) kinds).checkItems s.graph id = .ok () := checkItems_of_items hcell hchildren
    rw [Graph.keptTo_of_cell? hc]
    by_cases hparent : c.kind.isParent = true
    · have hset : c.setItems (([] ++ c.childIds).map .node) = c := by
        rw [List.nil_append, Cell.setItems, ← hchildren hparent]
      have hstart : Underway g depth id c [] c.childIds s :=
        ⟨hbelow, hnodup, fun i hi => hsame i (List.mem_cons_of_mem _ hi), by rw [hset, hcell]⟩
      obtain ⟨g', hrun, hid', hcells⟩ := exists_walkFrom (exists_walk depth) hparent c.childIds [] fuel s hstart
        (by omega)
      refine ⟨g', descend_of_row hcheck hrun, fun i => ?_⟩
      by_cases hi : i = id
      · subst hi
        rw [if_pos List.mem_cons_self, hid', hc, List.nil_append, Cell.without_setItems hparent (hchildren hparent)]
        rfl
      · rw [hcells i hi]
        simp only [List.mem_cons, hi, false_or]
    · have hnil : c.items = [] := if_neg hparent
      have hids : c.childIds = [] := by rw [Cell.childIds, hnil]; rfl
      obtain ⟨fuel, rfl⟩ : ∃ n, fuel = n + 1 := ⟨fuel - 1, by omega⟩
      have hend : (visitor kinds).walkFrom (fuel + 1) id (0 : Nat) s = .ok .next s :=
        walkFrom_end (by rw [Graph.items_of_cell? hcell, hnil]; exact Nat.le_refl 0)
      refine ⟨s.graph, descend_of_row hcheck hend, fun i => ?_⟩
      rw [hids]
      by_cases hi : i = id
      · subst hi
        rw [if_pos (by simp), hcell, hc, Option.map_some, Cell.without, if_neg hparent]
      · rw [if_neg (by simpa using hi)]

/-! ### What is removed -/

private theorem kindsOf_names (hroot : .root ∉ kinds) : kindsOf (kinds.map Kind.name) = .ok kinds := by
  have hknown : ((kinds.map Kind.name).filter fun s => (Kind.ofName? s).isNone) = [] := by
    simp [List.filter_eq_nil_iff, Kind.ofName?_name]
  have hname : (kinds.map Kind.name).contains Kind.root.name = false := by
    rw [List.contains_eq_any_beq, List.any_map, List.any_eq_false]
    intro k hk
    have hne : k ≠ .root := fun h => hroot (h ▸ hk)
    revert hne
    cases k <;> decide
  have hkinds : (kinds.map Kind.name).filterMap Kind.ofName? = kinds := by
    rw [List.filterMap_map, funext (f := Kind.ofName? ∘ Kind.name) (g := some) Kind.ofName?_name, List.filterMap_some]
  rw [kindsOf, hknown, hname, hkinds]
  rfl

private theorem namesOf_names (kinds : List Kind) :
    namesOf (.list (kinds.map fun k => .text k.name)) = .ok (kinds.map Kind.name) := by
  rw [namesOf]
  induction kinds with
  | nil => rfl
  | cons k kinds ih =>
    simp only [List.map_cons, List.mapM_cons]
    rw [ih]
    rfl

private theorem attach_kinds (hroot : .root ∉ kinds) :
    attach [("kinds", .list (kinds.map fun k => .text k.name))] s = .ok (.editing (transform kinds)) s := by
  have hoptions (defaults : List Field) (hdefaults : defaults = [("kinds", .list [.text "image"])]) :
      optionsFor defaults [("kinds", .list (kinds.map fun k => .text k.name))] =
        .ok [("kinds", .list (kinds.map fun k => .text k.name))] := by
    simp [hdefaults, optionsFor, setField]
  unfold attach
  rw [hoptions]
  · show (do
      let names ← namesOf (.list (kinds.map fun k => .text k.name))
      let kinds ← kindsOf names
      return .editing (transform kinds) : Stage σ (Attached σ)) s = _
    rw [namesOf_names]
    show (do let kinds ← kindsOf (kinds.map Kind.name); return .editing (transform kinds) : Stage σ (Attached σ)) s = _
    rw [kindsOf_names hroot]
    rfl
  · rfl

theorem transform_prunes (hroot : .root ∉ kinds) {top : NodeId} (htree : s.graph.IsTree top)
    (htop : s.graph.kind? top = some .root) :
    attach [("kinds", .list (kinds.map fun k => .text k.name))] s = .ok (.editing (transform kinds)) s ∧
      ∃ g', transform kinds top s = .ok () { s with graph := g' } ∧
        g'.unfold top = (s.graph.unfold top).prune kinds ∧
        s.graph.Prunes g' kinds (g'.preorder top) ∧
        ((∀ {i c p}, s.graph.cell? i = some c → c.position = some p → p.Ordered) →
          ∀ positions, s.graph.issues positions top = [] → g'.issues positions top = []) := by
  have hkeep : s.graph.selects kinds top = false := by
    rw [Graph.selects, htop]
    simpa using hroot
  obtain ⟨g', hrun, hcells⟩ := @exists_walk σ kinds s.graph (s.graph.size + 1) top _ none s htree.endsWithin htree.nodup
    (fun _ _ => rfl) hkeep (Nat.le_add_right (3 * (s.graph.preorder top).length) 3)
  have hprunes : s.graph.Prunes g' kinds (s.graph.keptTo kinds (s.graph.size + 1) top) := hcells
  have hpreorder : g'.preorder top = s.graph.keptTo kinds (s.graph.size + 1) top := by
    rw [Graph.preorder, hprunes.size]
    exact hprunes.preorderTo htree.endsWithin (List.Subset.refl _)
  refine ⟨attach_kinds hroot, g', ?_, ?_, by rw [hpreorder]; exact hprunes, fun hordered positions => ?_⟩
  · show (do visitor kinds |>.visit (3 * (s.graph.preorder top).length + 3) top : Stage σ Unit) s = _
    rw [Visitor.visit]
    show (do let _ ← (visitor kinds).walk (3 * (s.graph.preorder top).length + 3) (.node top) none : Stage σ Unit) s = _
    rw [bind_of_ok hrun]
    rfl
  · rw [Graph.unfold, Graph.unfoldItem, hprunes.size]
    exact hprunes.unfoldTo htree.endsWithin (List.Subset.refl _)
  · exact hprunes.issues_eq_nil htree hordered

/-- A paragraph of two images, a link to a third one, and a text. -/
def pictures : Session Unit :=
  { (default : Session Unit) with
    graph := ⟨#[
      ⟨.root, [], .items [.node 1], none, .empty⟩,
      ⟨.paragraph, [], .items [.node 2, .node 3, .node 4, .node 6], none, .empty⟩,
      ⟨.image, Kind.image.defaults, .none, none, .empty⟩,
      ⟨.image, Kind.image.defaults, .none, none, .empty⟩,
      ⟨.link, Kind.link.defaults, .items [.node 5], none, .empty⟩,
      ⟨.image, Kind.image.defaults, .none, none, .empty⟩,
      ⟨.text, [("value", .text "a")], .none, none, .empty⟩]⟩ }

private theorem isTree_pictures : pictures.graph.IsTree 0 where
  nodes := by
    intro id hid
    have hid : id ∈ [0, 1, 2, 3, 4, 5, 6] := hid
    simp only [List.mem_cons, List.not_mem_nil, or_false] at hid
    obtain rfl | rfl | rfl | rfl | rfl | rfl | rfl := hid
    · exact ⟨_, rfl, fun _ => ⟨[1], rfl⟩⟩
    · exact ⟨_, rfl, fun _ => ⟨[2, 3, 4, 6], rfl⟩⟩
    · exact ⟨_, rfl, fun h => by cases h⟩
    · exact ⟨_, rfl, fun h => by cases h⟩
    · exact ⟨_, rfl, fun _ => ⟨[5], rfl⟩⟩
    · exact ⟨_, rfl, fun h => by cases h⟩
    · exact ⟨_, rfl, fun h => by cases h⟩
  nodup := by decide

theorem transform_prunes_pictures :
    ∃ g', transform [.image] 0 pictures = .ok () { pictures with graph := g' } ∧
      g'.unfold 0 = (pictures.graph.unfold 0).prune [.image] ∧ g'.issues true 0 = [] := by
  obtain ⟨-, g', hrun, hunfold, -, hissues⟩ :=
    @transform_prunes Unit [.image] pictures (by decide) 0 isTree_pictures rfl
  refine ⟨g', hrun, hunfold, hissues (fun {i c p} hc hp => ?_) true (by decide +kernel)⟩
  have hnone : ∀ d ∈ pictures.graph.cells.toList, d.position = none := by decide
  have hmem : c ∈ pictures.graph.cells.toList := Array.mem_toList_iff.2 (Array.mem_of_getElem? hc)
  rw [hnone c hmem] at hp
  cases hp

end RemoveKinds

end MarkdownTree
