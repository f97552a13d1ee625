import MarkdownTree.Tree

/-!
# Nodes of a tree

The nodes of a tree are the node at its top and those below it, which are the nodes of its children
(`forall_mem_preorder`).  Changing the notes changes nothing about which nodes there are (`preorder_map`).
-/

namespace MarkdownTree.Tree

variable {α : Type u} {β : Type v}

/-- All nodes of a tree but the one at its top. -/
def descendants (t : Tree α) : List (Tree α) :=
  preorderList t.children

theorem preorder_eq (t : Tree α) : t.preorder = t :: t.descendants := by
  cases t
  rfl

theorem mem_preorderList {u : Tree α} {ts : List (Tree α)} : u ∈ preorderList ts ↔ ∃ t ∈ ts, u ∈ t.preorder := by
  induction ts with
  | nil => simp [preorderList]
  | cons t ts ih => simp [preorderList, ih]

theorem forall_mem_preorderList {P : Tree α → Prop} {ts : List (Tree α)} :
    (∀ u ∈ preorderList ts, P u) ↔ ∀ t ∈ ts, ∀ u ∈ t.preorder, P u := by
  simp only [mem_preorderList, forall_exists_index, and_imp]
  exact ⟨fun h t ht u hu => h u t ht hu, fun h u t ht hu => h t ht u hu⟩

/-- A property of all nodes is one of the top and of the nodes of every child. -/
theorem forall_mem_preorder {P : Tree α → Prop} {t : Tree α} :
    (∀ u ∈ t.preorder, P u) ↔ P t ∧ ∀ s ∈ t.children, ∀ u ∈ s.preorder, P u := by
  rw [preorder_eq, List.forall_mem_cons, descendants, forall_mem_preorderList]

private theorem mem_preorderList_cons {u : Tree α} {note : α} {content : Content} {below ts : List (Tree α)} :
    u ∈ preorderList (node note content below :: ts) ↔
      u = node note content below ∨ u ∈ preorderList below ∨ u ∈ preorderList ts := by
  simp [preorderList, preorder]

theorem forall_mem_preorderList_cons {P : Tree α → Prop} {note : α} {content : Content} {below ts : List (Tree α)} :
    (∀ u ∈ preorderList (node note content below :: ts), P u) ↔
      P (node note content below) ∧ (∀ u ∈ preorderList below, P u) ∧ ∀ u ∈ preorderList ts, P u := by
  simp [mem_preorderList_cons, or_imp, forall_and]

theorem exists_mem_preorderList_cons {P : Tree α → Prop} {note : α} {content : Content} {below ts : List (Tree α)} :
    (∃ u ∈ preorderList (node note content below :: ts), P u) ↔
      P (node note content below) ∨ (∃ u ∈ preorderList below, P u) ∨ ∃ u ∈ preorderList ts, P u := by
  simp [mem_preorderList_cons, or_and_right, exists_or]

theorem mem_preorder_self (t : Tree α) : t ∈ t.preorder := by
  rw [preorder_eq]
  exact .head _

mutual

theorem mem_preorder_trans : ∀ {t u v : Tree α}, u ∈ t.preorder → v ∈ u.preorder → v ∈ t.preorder
  | node n c children, u, v, hu, hv => by
    rw [preorder_eq] at hu ⊢
    rcases hu with _ | ⟨_, hu⟩
    · rw [preorder_eq] at hv
      exact hv
    · exact .tail _ (mem_preorderList_trans hu hv)

private theorem mem_preorderList_trans : ∀ {ts : List (Tree α)} {u v : Tree α},
    u ∈ preorderList ts → v ∈ u.preorder → v ∈ preorderList ts
  | [], _, _, hu, _ => by cases hu
  | t :: ts, u, v, hu, hv => by
    simp only [preorderList, List.mem_append] at hu ⊢
    rcases hu with hu | hu
    · exact .inl (mem_preorder_trans hu hv)
    · exact .inr (mem_preorderList_trans hu hv)

end

/-! ### Changing the notes -/

variable (f : α → β)

theorem note_map (t : Tree α) : (t.map f).note = f t.note := by
  cases t
  rfl

theorem content_map (t : Tree α) : (t.map f).content = t.content := by
  cases t
  rfl

theorem kind_map (t : Tree α) : (t.map f).kind = t.kind :=
  congrArg Content.kind (content_map f t)

theorem children_map (t : Tree α) : (t.map f).children = t.children.map (map f) := by
  cases t
  exact mapList_eq_map f _

mutual

theorem preorder_map : ∀ t : Tree α, (t.map f).preorder = t.preorder.map (map f)
  | node n c children => by
    simp only [map, preorder, List.map_cons, preorderList_mapList children]

theorem preorderList_mapList : ∀ ts : List (Tree α), preorderList (mapList f ts) = (preorderList ts).map (map f)
  | [] => rfl
  | t :: ts => by
    simp only [mapList, preorderList, List.map_append, preorder_map t, preorderList_mapList ts]

end

mutual

theorem map_map {γ : Type w} (g : β → γ) : ∀ t : Tree α, (t.map f).map g = t.map fun a => g (f a)
  | node n c children => by simp only [map, mapList_mapList g children]

theorem mapList_mapList {γ : Type w} (g : β → γ) : ∀ ts : List (Tree α),
    mapList g (mapList f ts) = mapList (fun a => g (f a)) ts
  | [] => rfl
  | t :: ts => by simp only [mapList, map_map g t, mapList_mapList g ts]

end

mutual

theorem map_id : ∀ t : Tree α, t.map id = t
  | node note content children => by rw [map, mapList_id children, id]

theorem mapList_id : ∀ ts : List (Tree α), mapList id ts = ts
  | [] => rfl
  | t :: ts => by rw [mapList, map_id t, mapList_id ts]

end

theorem erase_node (note : α) (content : Content) (children : List (Tree α)) :
    (node note content children).erase = node () content (children.map erase) := by
  rw [erase, map, mapList_eq_map]
  rfl

theorem map_erase_children {t : Tree α} {c : Content} {cs : List (Tree Unit)} (h : t.erase = node () c cs) :
    t.children.map erase = cs := by
  cases t
  rw [erase_node] at h
  cases h
  rfl

theorem erase_map (t : Tree α) : (t.map f).erase = t.erase :=
  map_map f (fun _ => ()) t

theorem descendants_map (t : Tree α) : (t.map f).descendants = t.descendants.map (map f) := by
  cases t
  exact preorderList_mapList f _

end MarkdownTree.Tree
