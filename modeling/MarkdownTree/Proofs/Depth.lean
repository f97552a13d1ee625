import Mathlib.Data.List.Nodup
import Mathlib.Data.List.Range
import MarkdownTree.Graph.Test
import MarkdownTree.Proofs.Pruning

/-!
# The depth of a tree

Below a node whose tree ends, no layer lies deeper than the number of nodes (`Graph.EndsWithin.size`), wherever the same
nodes are reached again.  So the list of a tree's nodes depends on no bound (`Graph.EndsWithin.preorder_eq`), and the
nodes that come off a stack of items are those of the list that pass the test (`Graph.EndsWithin.iterate_eq`).
-/

namespace MarkdownTree.Graph

variable {g : Graph} {depth depth' : Nat} {id : NodeId}

namespace EndsWithin

private theorem succ : ∀ {depth : Nat} {id : NodeId}, g.EndsWithin depth id → g.EndsWithin (depth + 1) id
  | 0, _, h => h.elim
  | _ + 1, _, ⟨c, hc, hitems, hparent, hbelow⟩ =>
    ⟨c, hc, hitems, hparent, fun child hchild => (hbelow child hchild).succ⟩

private theorem mono (h : g.EndsWithin depth id) (hle : depth ≤ depth') : g.EndsWithin depth' id := by
  induction hle with
  | refl => exact h
  | step _ ih => exact ih.succ

theorem items (h : g.EndsWithin depth id) : g.items id = (g.childIds id).map .node := by
  cases depth with
  | zero => exact h.elim
  | succ depth =>
    obtain ⟨c, hc, hitems, -⟩ := h
    rw [items_of_cell? hc, childIds_of_cell? hc, hitems]

theorem child (h : g.EndsWithin (depth + 1) id) {child : NodeId} (hchild : child ∈ g.childIds id) :
    g.EndsWithin depth child := by
  obtain ⟨c, hc, -, -, hbelow⟩ := h
  rw [childIds_of_cell? hc] at hchild
  exact hbelow child hchild

theorem cell? (h : g.EndsWithin depth id) : ∃ c, g.cell? id = some c := by
  cases depth with
  | zero => exact h.elim
  | succ depth => exact ⟨_, h.choose_spec.1⟩

theorem stray?_eq_none (h : g.EndsWithin depth id) : g.stray? id = none := by
  cases depth with
  | zero => exact h.elim
  | succ depth =>
    obtain ⟨c, hc, -, hparent, -⟩ := h
    have hstray : g.stray? id = if c.kind.isParent then c.children.stray? else none := by
      rw [stray?, hc]
      rfl
    rw [hstray]
    split
    · rename_i h
      rw [hparent h]
      rfl
    · rfl

/-- A tree with more layers than a bound has a node below which there is just one more than that. -/
private theorem exists_exact : ∀ {depth k : Nat} {id : NodeId}, g.EndsWithin depth id → ¬g.EndsWithin k id →
    ∃ n, g.EndsWithin (k + 1) n ∧ ¬g.EndsWithin k n
  | 0, _, _, h, _ => h.elim
  | depth + 1, k, id, h, hdeep => by
    by_cases hnext : g.EndsWithin (k + 1) id
    · exact ⟨id, hnext, hdeep⟩
    · obtain ⟨c, hc, hitems, hparent, hbelow⟩ := h
      have hchild : ∃ child ∈ c.childIds, ¬g.EndsWithin k child := by
        by_contra hnone
        exact hnext ⟨c, hc, hitems, hparent, fun child hchild => not_not.1 fun hne => hnone ⟨child, hchild, hne⟩⟩
      obtain ⟨child, hmem, hchild⟩ := hchild
      exact exists_exact (hbelow child hmem) hchild

/-- No tree has more layers than there are nodes: each layer has a node with just so many layers below it. -/
theorem size (h : g.EndsWithin depth id) : g.EndsWithin (g.size + 1) id := by
  by_contra hdeep
  have hexact (k : Nat) : k < g.size + 1 → ∃ n, g.EndsWithin (k + 1) n ∧ ¬g.EndsWithin k n :=
    fun hk => h.exists_exact fun hends => hdeep (hends.mono hk.le)
  choose! layer hlayer using hexact
  have hinj {i j : Nat} (hj : j < g.size + 1) (hij : i < j) : layer i ≠ layer j := by
    intro heq
    have hi := (hlayer i (hij.trans hj)).1
    rw [heq] at hi
    exact (hlayer j hj).2 (hi.mono hij)
  have hnodup : ((List.range (g.size + 1)).map layer).Nodup := by
    refine List.Nodup.map_on (fun i hi j hj heq => ?_) List.nodup_range
    rw [List.mem_range] at hi hj
    rcases Nat.lt_trichotomy i j with hij | hij | hij
    · exact absurd heq (hinj hj hij)
    · exact hij
    · exact absurd heq.symm (hinj hi hij)
  have hsub : (List.range (g.size + 1)).map layer ⊆ List.range g.size := by
    intro n hn
    obtain ⟨k, hk, rfl⟩ := List.mem_map.1 hn
    obtain ⟨c, hc⟩ := (hlayer k (List.mem_range.1 hk)).1.cell?
    exact List.mem_range.2 (lt_size_of_cell? hc)
  have hlength := (hnodup.subperm hsub).length_le
  rw [List.length_map, List.length_range, List.length_range] at hlength
  omega

/-- The nodes of a tree do not depend on a bound that the tree keeps to. -/
private theorem preorderTo_eq : ∀ {depth depth' : Nat} {id : NodeId}, g.EndsWithin depth id → depth ≤ depth' →
    g.preorderTo depth' id = g.preorderTo depth id
  | 0, _, _, h, _ => h.elim
  | depth + 1, 0, _, _, hle => absurd hle (Nat.not_succ_le_zero depth)
  | depth + 1, depth' + 1, id, h, hle => by
    rw [preorderTo, preorderTo, List.flatMap_congr fun child hchild =>
      (h.child hchild).preorderTo_eq (Nat.le_of_succ_le_succ hle)]

theorem preorder_eq_preorderTo (h : g.EndsWithin depth id) : g.preorder id = g.preorderTo depth id := by
  rcases Nat.le_total depth (g.size + 1) with hle | hle
  · exact h.preorderTo_eq hle
  · exact (h.size.preorderTo_eq hle).symm

theorem preorder_eq (h : g.EndsWithin depth id) : g.preorder id = id :: (g.childIds id).flatMap g.preorder := by
  rw [preorder, preorderTo]
  congr 1
  refine List.flatMap_congr fun child hchild => ?_
  exact ((h.size.child hchild).preorderTo_eq (Nat.le_succ _)).symm

end EndsWithin

/-! ### The nodes on a stack -/

private theorem iterateFrom_eq (test : NodeTest) :
    ∀ {fuel : Nat} {ids : List NodeId}, (∀ id ∈ ids, g.EndsWithin depth id) →
    (ids.flatMap g.preorder).length ≤ fuel →
    g.iterateFrom test fuel (ids.map .node) = .ok ((ids.flatMap g.preorder).filter (g.passes test))
  | fuel, [], _, _ => by cases fuel <;> rfl
  | 0, id :: ids, hends, hfuel => by
    rw [List.flatMap_cons, (hends id List.mem_cons_self).preorder_eq] at hfuel
    exact absurd hfuel (Nat.not_succ_le_zero _)
  | fuel + 1, id :: ids, hends, hfuel => by
    obtain ⟨hid, hids⟩ := List.forall_mem_cons.1 hends
    have hrest : ∀ n ∈ g.childIds id ++ ids, g.EndsWithin depth n := by
      intro n hn
      rcases List.mem_append.1 hn with hchild | hn
      · cases depth with
        | zero => exact hid.elim
        | succ depth => exact (hid.child hchild).succ
      · exact hids n hn
    rw [List.flatMap_cons, hid.preorder_eq] at hfuel ⊢
    have hlength : ((g.childIds id ++ ids).flatMap g.preorder).length ≤ fuel := by
      rw [List.flatMap_append]
      exact Nat.le_of_succ_le_succ hfuel
    have hbelow := iterateFrom_eq test hrest hlength
    rw [List.map_append, ← hid.items, List.flatMap_append] at hbelow
    show (do
      (g.stray? id).forM Draft.checkRow
      let found ← g.iterateFrom test fuel (g.items id ++ ids.map .node)
      return if g.passes test id then id :: found else found : Except Fault (List NodeId)) = _
    rw [hid.stray?_eq_none, hbelow, List.cons_append, List.filter_cons]
    rfl

/-- The nodes that come off the stack are those of the tree in document order. -/
theorem EndsWithin.iterate_eq (h : g.EndsWithin depth id) (test : NodeTest) :
    g.iterate test id = .ok (g.select test id) := by
  have hids : ∀ n ∈ [id], g.EndsWithin depth n := fun n hn => List.mem_singleton.1 hn ▸ h
  have hfrom := iterateFrom_eq test hids (Nat.le_of_eq (congrArg List.length (List.flatMap_singleton g.preorder id)))
  rw [List.flatMap_singleton] at hfrom
  exact hfrom

end MarkdownTree.Graph
