import Mathlib.Data.List.Flatten
import Mathlib.Data.List.Perm.Subperm
import MarkdownTree.Proofs.Depth

/-!
# What an edit leaves alone

An edit spares a node if it is of the same kind afterwards and has the same children (`Graph.Spares`).  What a test says
of a node may rest on all that is below it, so it is only asked to be the same where all of this is spared.  A tree whose
nodes are all spared has the same nodes in the same order (`Graph.Ends.spares`), and the trees of a row of siblings
(`Graph.due`) are what is left for a walk that is at the first of them.
-/

namespace MarkdownTree.Graph

variable {g g' g'' : Graph} {test : NodeTest} {n : NodeId} {row row' : List NodeId} {p q : NodeId → Prop}

/-- The tree below a node comes to an end everywhere, and all that stands in it is a node. -/
def Ends (g : Graph) (n : NodeId) : Prop :=
  ∃ depth, g.EndsWithin depth n

/-- The second graph has some nodes as the first: of the same kind and with the same children.  If this is so of all that
is below a node, it passes the test in both or in neither. -/
structure Spares (test : NodeTest) (g g' : Graph) (p : NodeId → Prop) : Prop where
  same : ∀ n, p n → ∀ c, g.cell? n = some c → ∃ c', g'.cell? n = some c' ∧ c'.kind = c.kind ∧ c'.children = c.children
  passes : ∀ n, g.Ends n → (∀ m ∈ g.preorder n, p m) → g'.passes test n = g.passes test n

/-- The nodes of the trees of a row. -/
def due (g : Graph) (row : List NodeId) : List NodeId :=
  row.flatMap g.preorder

/-- The trees of a row have the same nodes in two graphs, and the same of them pass the test. -/
structure Agree (test : NodeTest) (g g' : Graph) (row : List NodeId) : Prop where
  preorder : ∀ sib ∈ row, g'.preorder sib = g.preorder sib
  passes : ∀ m ∈ g.due row, g'.passes test m = g.passes test m

/-! ### The nodes of a row -/

theorem mem_due {m : NodeId} : m ∈ g.due row ↔ ∃ sib ∈ row, m ∈ g.preorder sib :=
  List.mem_flatMap

@[simp] theorem due_nil : g.due [] = [] :=
  rfl

@[simp] theorem due_cons : g.due (n :: row) = g.preorder n ++ g.due row :=
  List.flatMap_cons

@[simp] theorem due_append : g.due (row ++ row') = g.due row ++ g.due row' :=
  List.flatMap_append

theorem mem_preorder_self : n ∈ g.preorder n :=
  List.mem_cons_self

theorem subset_due : row ⊆ g.due row :=
  fun sib hsib => mem_due.2 ⟨sib, hsib, mem_preorder_self⟩

theorem due_sublist (h : row.Sublist row') : (g.due row).Sublist (g.due row') :=
  h.flatMap g.preorder

theorem due_perm (h : row.Perm row') : (g.due row).Perm (g.due row') :=
  h.flatMap_right _

theorem due_subperm (h : row.Subperm row') : (g.due row).Subperm (g.due row') := by
  obtain ⟨xs, hperm, hsub⟩ := h
  exact (due_perm hperm).symm.subperm.trans (due_sublist hsub).subperm

/-- A row is among the nodes of its trees. -/
theorem sublist_due (row : List NodeId) : row.Sublist (g.due row) := by
  induction row with
  | nil => exact List.Sublist.refl []
  | cons n row ih =>
    rw [due_cons]
    exact (ih.trans (List.sublist_append_right (g.childIds n |>.flatMap (g.preorderTo g.size)) _)).cons_cons n

/-! ### Trees that end -/

namespace Ends

theorem preorder_eq (h : g.Ends n) : g.preorder n = n :: g.due (g.childIds n) :=
  h.choose_spec.preorder_eq

theorem items (h : g.Ends n) : g.items n = (g.childIds n).map .node :=
  h.choose_spec.items

theorem cell? (h : g.Ends n) : ∃ c, g.cell? n = some c :=
  h.choose_spec.cell?

theorem stray?_eq_none (h : g.Ends n) : g.stray? n = none :=
  h.choose_spec.stray?_eq_none

theorem child (h : g.Ends n) {child : NodeId} (hchild : child ∈ g.childIds n) : g.Ends child := by
  obtain ⟨depth, h⟩ := h
  cases depth with
  | zero => exact h.elim
  | succ depth => exact ⟨depth, h.child hchild⟩

end Ends

theorem IsTree.ends (h : g.IsTree n) : g.Ends n :=
  ⟨_, h.endsWithin⟩

/-! ### Spared nodes -/

namespace Spares

theorem mono (h : Spares test g g' p) (hsub : ∀ n, q n → p n) : Spares test g g' q where
  same n hn := h.same n (hsub n hn)
  passes n hends hn := h.passes n hends fun m hm => hsub m (hn m hm)

variable {c : Cell}

theorem items (h : Spares test g g' p) (hn : p n) (hc : g.cell? n = some c) : g'.items n = g.items n := by
  obtain ⟨d, hd, hkind, hchildren⟩ := h.same n hn c hc
  rw [items_of_cell? hd, items_of_cell? hc, Cell.items, Cell.items, hkind, hchildren]

theorem childIds (h : Spares test g g' p) (hn : p n) (hc : g.cell? n = some c) : g'.childIds n = g.childIds n := by
  have hitems := h.items hn hc
  obtain ⟨d, hd, -⟩ := h.same n hn c hc
  rw [items_of_cell? hd, items_of_cell? hc] at hitems
  rw [childIds_of_cell? hd, childIds_of_cell? hc, Cell.childIds, Cell.childIds, hitems]

end Spares

theorem EndsWithin.spares (hspares : Spares test g g' p) : ∀ {depth : Nat} {n : NodeId}, g.EndsWithin depth n →
    (∀ m ∈ g.preorderTo depth n, p m) → g'.EndsWithin depth n ∧ g'.preorderTo depth n = g.preorderTo depth n
  | 0, _, h, _ => h.elim
  | depth + 1, n, h, hall => by
    have hself := hall n List.mem_cons_self
    have hends := h
    obtain ⟨c, hc, hitems, hparent, -⟩ := h
    have hchildIds := hspares.childIds hself hc
    have hbelow : ∀ child ∈ g.childIds n,
        g'.EndsWithin depth child ∧ g'.preorderTo depth child = g.preorderTo depth child :=
      fun child hchild => (hends.child hchild).spares hspares fun m hm =>
        hall m (List.mem_cons_of_mem _ (List.mem_flatMap.2 ⟨child, hchild, hm⟩))
    refine ⟨?_, ?_⟩
    · obtain ⟨d, hd, hkind, hchildren⟩ := hspares.same n hself c hc
      have hsame : d.childIds = c.childIds := by rw [← childIds_of_cell? hd, ← childIds_of_cell? hc, hchildIds]
      refine ⟨d, hd, ?_, ?_, ?_⟩
      · rw [hsame, ← hitems, Cell.items, Cell.items, hkind, hchildren]
      · rw [hsame, hkind, hchildren]
        exact hparent
      · rw [hsame, ← childIds_of_cell? hc]
        exact fun child hchild => (hbelow child hchild).1
    · rw [preorderTo, preorderTo, hchildIds, List.flatMap_congr fun child hchild => (hbelow child hchild).2]

/-- A tree whose nodes are spared still ends, and has the same nodes. -/
theorem Ends.spares (h : g.Ends n) (hspares : Spares test g g' p) (hall : ∀ m ∈ g.preorder n, p m) :
    g'.Ends n ∧ g'.preorder n = g.preorder n := by
  obtain ⟨depth, h⟩ := h
  have hpreorder := h.preorder_eq_preorderTo
  obtain ⟨hends, hsame⟩ := h.spares hspares fun m hm => hall m (hpreorder ▸ hm)
  exact ⟨⟨depth, hends⟩, by rw [hends.preorder_eq_preorderTo, hsame, hpreorder]⟩

namespace Spares

theorem refl (test : NodeTest) (g : Graph) (p : NodeId → Prop) : Spares test g g p :=
  ⟨fun _ _ c hc => ⟨c, hc, rfl, rfl⟩, fun _ _ _ => rfl⟩

/-- What is spared by one edit and then by another one is spared by both. -/
theorem trans (h : Spares test g g' p) (h' : Spares test g' g'' q) (hsub : ∀ n, p n → q n) : Spares test g g'' p where
  same n hn c hc := by
    obtain ⟨d, hd, hkind, hchildren⟩ := h.same n hn c hc
    obtain ⟨e, he, hkind', hchildren'⟩ := h'.same n (hsub n hn) d hd
    exact ⟨e, he, hkind'.trans hkind, hchildren'.trans hchildren⟩
  passes n hends hall := by
    obtain ⟨hends', hsame⟩ := hends.spares h hall
    exact (h'.passes n hends' fun m hm => hsub m (hall m (hsame ▸ hm))).trans (h.passes n hends hall)

end Spares

/-- All that stands in a tree that ends is the root of one, and what is below it is in the tree as well. -/
private theorem EndsWithin.ends_of_mem :
    ∀ {depth : Nat} {n m : NodeId}, g.EndsWithin depth n → m ∈ g.preorderTo depth n →
    g.Ends m ∧ g.preorder m ⊆ g.preorderTo depth n
  | 0, _, _, h, _ => h.elim
  | depth + 1, n, m, h, hm => by
    rcases List.mem_cons.1 hm with rfl | hbelow
    · exact ⟨⟨_, h⟩, h.preorder_eq_preorderTo ▸ List.Subset.refl _⟩
    · obtain ⟨child, hchild, hm⟩ := List.mem_flatMap.1 hbelow
      obtain ⟨hends, hsub⟩ := (h.child hchild).ends_of_mem hm
      exact ⟨hends, fun x hx => List.mem_cons_of_mem _ (List.mem_flatMap.2 ⟨child, hchild, hsub hx⟩)⟩

private theorem ends_of_mem_due (hends : ∀ sib ∈ row, g.Ends sib) {m : NodeId} (hm : m ∈ g.due row) :
    g.Ends m ∧ g.preorder m ⊆ g.due row := by
  obtain ⟨sib, hsib, hm⟩ := mem_due.1 hm
  obtain ⟨depth, h⟩ := hends sib hsib
  have hpreorder := h.preorder_eq_preorderTo
  obtain ⟨hm, hsub⟩ := h.ends_of_mem (hpreorder ▸ hm)
  exact ⟨hm, fun x hx => mem_due.2 ⟨sib, hsib, hpreorder ▸ hsub hx⟩⟩

/-- The trees of a row whose nodes are spared are the same as before. -/
theorem agree_of_spares (hends : ∀ sib ∈ row, g.Ends sib) (hspares : Spares test g g' p) (hrow : ∀ m ∈ g.due row, p m) :
    Agree test g g' row where
  preorder sib hsib := ((hends sib hsib).spares hspares fun m hm => hrow m (mem_due.2 ⟨sib, hsib, hm⟩)).2
  passes m hm := by
    obtain ⟨hends, hsub⟩ := ends_of_mem_due hends hm
    exact hspares.passes m hends fun x hx => hrow x (hsub hx)

theorem Agree.due (h : Agree test g g' row) : g'.due row = g.due row :=
  List.flatMap_congr h.preorder

end MarkdownTree.Graph
