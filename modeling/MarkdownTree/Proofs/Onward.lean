import MarkdownTree.Proofs.Recording
import MarkdownTree.Proofs.Spared

/-!
# What a call leads to

After a call of the callback a walk goes into one node, the heir of the call, and on along a row of siblings
(`Visitor.heir`, `Visitor.onward`).  An edit is sound for a walk if these are other nodes than the one that was called
on, or that node itself, and all of them were ahead before or came in with the edit (`Visitor.Sound`).  In a tree in
which no node stands twice, a sound edit leaves the walk with less before it than it had, what came in added
(`Visitor.Fits.due_subperm`).
-/

namespace MarkdownTree

namespace Call

variable (call : Call)

/-- The row in which the node of a call stands; the start of a walk stands in none. -/
def row (g : Graph) : List NodeId :=
  (call.seat.map fun seat => g.childIds seat.parent).getD []

/-- What stands in the row after a call and did not stand there before. -/
def fresh : List NodeId :=
  (call.row call.after).filter fun n => n ∉ call.row call.before

/-- The nodes of the trees that came in. -/
def entered : List NodeId :=
  call.after.due call.fresh

/-- The node of a call stands in its seat, in a row of nodes in which none stands twice, and nothing came in twice. -/
structure Situated : Prop where
  stands : ∀ seat, call.seat = some seat → (call.before.childIds seat.parent)[seat.index]? = some call.node
  items : ∀ seat, call.seat = some seat → call.before.items seat.parent = (call.before.childIds seat.parent).map .node
  nodup : (call.row call.before).Nodup
  fresh : call.fresh.Nodup

/-- A call that lets the walk go on and edits nothing but the row of its node, in which there are nodes afterwards; what
came in are roots of trees. -/
structure Edits (test : NodeTest) : Prop where
  proceeds : call.answer = .ok .proceed
  spares : Graph.Spares test call.before call.after fun n => call.seat.map Seat.parent ≠ some n
  items : ∀ seat, call.seat = some seat → (∃ c, call.after.cell? seat.parent = some c) ∧
    call.after.items seat.parent = (call.after.childIds seat.parent).map .node
  trees : ∀ n ∈ call.fresh, call.after.IsTree n

variable {call} {seat : Seat}

theorem row_of_seat (hseat : call.seat = some seat) (g : Graph) : call.row g = g.childIds seat.parent := by
  rw [row, hseat]
  rfl

theorem Edits.items_row {test : NodeTest} (h : call.Edits test) (hseat : call.seat = some seat) :
    call.after.items seat.parent = (call.row call.after).map .node := by
  rw [row_of_seat hseat]
  exact (h.items seat hseat).2

end Call

namespace Visitor

variable {σ : Type} (v : Visitor σ) (call : Call)

/-- The siblings that a walk has before it when it is done with what stands in a seat. -/
def rest (g : Graph) (seat : Option Seat) (outcome : Outcome) : List NodeId :=
  (seat.map fun seat => ahead v.backwards (g.childIds seat.parent) (v.after seat.index outcome)).getD []

/-- The siblings that are ahead of a node when the callback is called on it. -/
def far : List NodeId :=
  v.rest call.before call.seat .next

/-- What a walk goes into after a call, and where it goes after that. -/
def target : Option Item × Outcome :=
  v.lead call.node call.seat call.before call.after

/-- The node whose children a walk goes into after a call. -/
def heir : Option NodeId :=
  (v.target call).1.bind Item.id?

/-- The children that a walk goes into after a call. -/
def inside : List NodeId :=
  ((v.heir call).map fun n => orient v.backwards (call.after.childIds n)).getD []

/-- The siblings along which a walk goes on after a call. -/
def onward : List NodeId :=
  v.rest call.after call.seat (v.target call).2

/-- An edit that leads only to nodes that were ahead or came in, to each of them once, and not to the node of the call
among its siblings. -/
structure Sound : Prop extends call.Edits v.test where
  nodup : (call.row call.after).Nodup
  distinct : ((v.heir call).toList ++ v.onward call).Nodup
  subset : (v.heir call).toList ++ v.onward call ⊆ call.node :: v.far call ++ call.fresh
  leaves : call.node ∉ v.onward call

/-- A sound call in a tree: all that is ahead is the root of a tree, and no node stands there twice. -/
structure Fits : Prop where
  situated : call.Situated
  sound : v.Sound call
  ends : ∀ sib ∈ call.node :: v.far call, call.before.Ends sib
  nodup : ((call.seat.map Seat.parent).toList ++ (call.before.due (call.node :: v.far call) ++ call.entered)).Nodup

/-- What is below the nodes that a walk goes into and on along after a call. -/
def left : List NodeId :=
  call.after.due (v.inside call) ++ call.after.due (v.onward call)

/-- What is ahead at a call, its own node first, and what comes in with it. -/
def reach : List NodeId :=
  call.before.due (call.node :: v.far call) ++ call.entered

/-! ### Where a call leads -/

section Lead

variable {before after : Graph} {seat : Seat} {id : NodeId} {row : List NodeId}

/-- After a call the walk goes on from where the node stands now. -/
theorem lead_of_mem (before : Graph) (hrow : after.items seat.parent = row.map .node) (hmem : id ∈ row) :
    ∃ j, row[j]? = some id ∧ (v.lead id (some seat) before after).1 = some (.node id) ∧
      v.after seat.index (v.lead id (some seat) before after).2 = v.step j := by
  have hmem' : Item.node id ∈ row.map Item.node := List.mem_map_of_mem hmem
  by_cases hsame : row[seat.index]? = some id
  · have hget : (row.map Item.node)[seat.index]? = some (.node id) := by rw [List.getElem?_map, hsame]; rfl
    have hstanding : standingOf after (siblingCount before (some seat)) id (some seat) = .same := by
      rw [standingOf, hrow, standing, if_pos hget]
    refine ⟨seat.index, hsame, ?_⟩
    rw [lead, hstanding]
    exact ⟨rfl, rfl⟩
  · have hget : ¬(row.map Item.node)[seat.index]? = some (.node id) := by
      rw [List.getElem?_map]
      intro h
      obtain ⟨n, hn, hnode⟩ := Option.map_eq_some_iff.1 h
      exact hsame (hn.trans (congrArg some (Item.node.inj hnode)))
    have hstanding : standingOf after (siblingCount before (some seat)) id (some seat) =
        .moved ((row.map Item.node).idxOf (.node id)) := by
      rw [standingOf, hrow, standing, if_neg hget, if_pos hmem']
    refine ⟨(row.map Item.node).idxOf (.node id), ?_, ?_⟩
    · have hidx := List.getElem?_idxOf hmem'
      rw [List.getElem?_map] at hidx
      obtain ⟨n, hn, hsame⟩ := Option.map_eq_some_iff.1 hidx
      rw [hn, Item.node.inj hsame]
    · rw [lead, hstanding]
      exact ⟨rfl, rfl⟩

variable (hrow : after.items seat.parent = row.map .node) (hmem : id ∉ row)

include hrow hmem

/-- Of a node that is gone the walk sees how many siblings are left, and what stands at its index now. -/
private theorem standingOf_gone : standingOf after (siblingCount before (some seat)) id (some seat) =
    if row.length < (before.items seat.parent).length then .removed
    else match row[seat.index]? with
      | some n => .replaced (.node n)
      | none => .vanished := by
  have hmem' : Item.node id ∉ row.map Item.node := by
    intro h
    obtain ⟨n, hn, hsame⟩ := List.mem_map.1 h
    exact hmem (Item.node.inj hsame ▸ hn)
  have hget : ¬(row.map Item.node)[seat.index]? = some (.node id) :=
    fun h => hmem' (List.mem_of_getElem? h)
  rw [standingOf, hrow, standing, if_neg hget, if_neg hmem', List.length_map, siblingCount, List.getElem?_map]
  cases row[seat.index]? <;> rfl

theorem lead_of_shorter (hlength : row.length < (before.items seat.parent).length) :
    v.lead id (some seat) before after =
      (none, .goto (if v.backwards then (seat.index : Int) - 1 else seat.index)) := by
  rw [lead, standingOf_gone hrow hmem, if_pos hlength]
  rfl

theorem lead_of_taken (hlength : ¬row.length < (before.items seat.parent).length) {n : NodeId}
    (hget : row[seat.index]? = some n) : v.lead id (some seat) before after = (some (.node n), .next) := by
  rw [lead, standingOf_gone hrow hmem, if_neg hlength, hget]

private theorem lead_of_end (hlength : ¬row.length < (before.items seat.parent).length)
    (hget : row[seat.index]? = none) :
    v.lead id (some seat) before after = (none, .next) := by
  rw [lead, standingOf_gone hrow hmem, if_neg hlength, hget]

end Lead

variable {v} {call}

/-! ### Sound calls -/

theorem nodup_of_subperm {α : Type} {xs ys : List α} (h : xs.Subperm ys) (hys : ys.Nodup) : xs.Nodup := by
  obtain ⟨zs, hperm, hsub⟩ := h
  exact hperm.nodup_iff.1 (hys.sublist hsub)

/-- Where no node stands twice in the trees of a row, a node stands in one of them. -/
theorem eq_of_mem_due {g : Graph} {row : List NodeId} (hnodup : (g.due row).Nodup) {w u x : NodeId} (hw : w ∈ row)
    (hu : u ∈ row) (hxw : x ∈ g.preorder w) (hxu : x ∈ g.preorder u) : w = u := by
  induction row with
  | nil => exact absurd hw List.not_mem_nil
  | cons n row ih =>
    rw [Graph.due_cons] at hnodup
    obtain ⟨-, htail, hapart⟩ := List.nodup_append'.1 hnodup
    rcases List.mem_cons.1 hw with hwn | hw' <;> rcases List.mem_cons.1 hu with hun | hu'
    · rw [hwn, hun]
    · exact (hapart (hwn ▸ hxw) (Graph.mem_due.2 ⟨u, hu', hxu⟩)).elim
    · exact (hapart (hun ▸ hxu) (Graph.mem_due.2 ⟨w, hw', hxw⟩)).elim
    · exact ih htail hw' hu'

theorem Sound.target_fst (h : v.Sound call) : (v.target call).1 = (v.heir call).map .node := by
  have hnode : ∀ item, (v.target call).1 = some item → ∃ n, item = .node n := by
    intro item hitem
    unfold target at hitem
    cases hseat : call.seat with
    | none =>
      rw [hseat] at hitem
      exact ⟨_, (Option.some.inj hitem).symm⟩
    | some seat =>
      rw [hseat] at hitem
      have hrow := (h.items seat hseat).2
      by_cases hmem : call.node ∈ call.after.childIds seat.parent
      · obtain ⟨-, -, hfst, -⟩ := v.lead_of_mem call.before hrow hmem
        exact ⟨_, (Option.some.inj (hfst.symm.trans hitem)).symm⟩
      · by_cases hlength : (call.after.childIds seat.parent).length < (call.before.items seat.parent).length
        · rw [v.lead_of_shorter hrow hmem hlength] at hitem
          cases hitem
        · cases hget : (call.after.childIds seat.parent)[seat.index]? with
          | none =>
            rw [v.lead_of_end hrow hmem hlength hget] at hitem
            cases hitem
          | some n =>
            rw [v.lead_of_taken hrow hmem hlength hget] at hitem
            exact ⟨n, (Option.some.inj hitem).symm⟩
  unfold heir
  cases htarget : (v.target call).1 with
  | none => rfl
  | some item =>
    obtain ⟨n, rfl⟩ := hnode item htarget
    rfl

namespace Fits

variable (h : v.Fits call)

include h

theorem reach_nodup : (v.reach call).Nodup :=
  (List.nodup_append'.1 h.nodup).2.1

private theorem ne_parent {m : NodeId} (hm : m ∈ call.before.due (call.node :: v.far call)) :
    call.seat.map Seat.parent ≠ some m := by
  intro hparent
  have hapart := (List.nodup_append'.1 h.nodup).2.2
  rw [hparent] at hapart
  exact hapart (List.mem_singleton_self m) (List.mem_append_left _ hm)

theorem agree : Graph.Agree v.test call.before call.after (call.node :: v.far call) :=
  Graph.agree_of_spares h.ends h.sound.spares fun _ => h.ne_parent

private theorem ends_after {sib : NodeId} (hsib : sib ∈ call.node :: v.far call ++ call.fresh) :
    call.after.Ends sib := by
  rcases List.mem_append.1 hsib with hsib | hsib
  · exact ((h.ends sib hsib).spares h.sound.spares fun m hm => h.ne_parent (Graph.mem_due.2 ⟨sib, hsib, hm⟩)).1
  · exact (h.sound.trees sib hsib).ends

theorem due_after : call.after.due (call.node :: v.far call ++ call.fresh) = v.reach call := by
  rw [Graph.due_append, h.agree.due]
  rfl

theorem heirs_ends {sib : NodeId} (hsib : sib ∈ (v.heir call).toList ++ v.onward call) : call.after.Ends sib :=
  h.ends_after (h.sound.subset hsib)

/-- The children of the heir are all that is below it. -/
theorem perm_inside {n : NodeId} (hn : v.heir call = some n) :
    (n :: call.after.due (v.inside call)).Perm (call.after.preorder n) := by
  have hends := h.heirs_ends (List.mem_append_left _ (by rw [hn]; exact List.mem_singleton_self n))
  have hinside : (v.inside call).Perm (call.after.childIds n) := by
    rw [inside, hn]
    exact orient_perm v.backwards _
  rw [hends.preorder_eq]
  exact (Graph.due_perm hinside).cons n

/-- What a walk has before it after a call is what is below the heir, but not the heir itself, and the siblings. -/
private theorem perm_left : ((v.heir call).toList ++ v.left call).Perm
    (call.after.due ((v.heir call).toList ++ v.onward call)) := by
  cases hheir : v.heir call with
  | none =>
    have hinside : v.inside call = [] := by rw [inside, hheir]; rfl
    rw [left, hinside]
    exact List.Perm.refl _
  | some n =>
    rw [Graph.due_append, left, ← List.append_assoc]
    refine List.Perm.append_right _ ((h.perm_inside hheir).trans ?_)
    rw [Option.toList_some, Graph.due_cons, Graph.due_nil, List.append_nil]

/-- After a call a walk has less before it than what was ahead and what came in: at least the node of the call is done
with. -/
theorem due_subperm : (call.node :: v.left call).Subperm (v.reach call) := by
  have hnodes : (call.node :: v.far call ++ call.fresh).Nodup := by
    have hnodup := h.reach_nodup
    rw [← h.due_after] at hnodup
    exact hnodup.sublist (Graph.sublist_due _)
  rw [← h.due_after]
  by_cases hheir : v.heir call = some call.node
  · have hleft := h.perm_left
    rw [hheir] at hleft
    refine hleft.subperm.trans (Graph.due_subperm (List.subperm_of_subset ?_ ?_))
    · exact hheir ▸ h.sound.distinct
    · exact hheir ▸ h.sound.subset
  · have hnode : call.node ∉ (v.heir call).toList ++ v.onward call := by
      intro hnode
      rcases List.mem_append.1 hnode with hnode | hnode
      · exact hheir (Option.mem_toList.1 hnode)
      · exact h.sound.leaves hnode
    have hall : (call.node :: ((v.heir call).toList ++ v.onward call)).Subperm
        (call.node :: v.far call ++ call.fresh) :=
      List.subperm_of_subset (List.nodup_cons.2 ⟨hnode, h.sound.distinct⟩)
        (List.cons_subset.2 ⟨List.mem_cons_self, h.sound.subset⟩)
    refine List.Subperm.trans ?_ (Graph.due_subperm hall)
    rw [Graph.due_cons]
    have hleft : (v.left call).Subperm (call.after.due ((v.heir call).toList ++ v.onward call)) :=
      (List.sublist_append_right _ _).subperm.trans h.perm_left.subperm
    exact List.Subperm.append (List.singleton_sublist.2 Graph.mem_preorder_self).subperm hleft

theorem left_nodup : (call.node :: v.left call).Nodup :=
  nodup_of_subperm h.due_subperm h.reach_nodup

theorem left_subset : v.left call ⊆ v.reach call :=
  fun _ hx => h.due_subperm.subset (List.mem_cons_of_mem _ hx)

private theorem left_subset_due : v.left call ⊆ call.after.due ((v.heir call).toList ++ v.onward call) :=
  fun _ hx => h.perm_left.subset (List.mem_append_right _ hx)

theorem heirs_subperm : ((v.heir call).toList ++ v.left call).Subperm (v.reach call) := by
  refine h.perm_left.subperm.trans ?_
  rw [← h.due_after]
  exact Graph.due_subperm (List.subperm_of_subset h.sound.distinct h.sound.subset)

/-- What is below the heir was ahead or came in. -/
theorem inside_subset : (v.heir call).toList ++ call.after.due (v.inside call) ⊆ v.reach call := by
  intro m hm
  refine h.heirs_subperm.subset ?_
  rw [left, ← List.append_assoc]
  exact List.mem_append_left _ hm

/-- The heir is done with as well. -/
theorem heir_notMem_left {n : NodeId} (hn : v.heir call = some n) : n ∉ v.left call := by
  have hnodup := nodup_of_subperm h.heirs_subperm h.reach_nodup
  rw [hn] at hnodup
  exact (List.nodup_cons.1 hnodup).1

/-- Nothing is left of the tree of a node that a walk neither goes into nor comes to. -/
theorem notMem_left {w x : NodeId} (hw : w ∈ call.node :: v.far call ++ call.fresh)
    (hout : w ∉ (v.heir call).toList ++ v.onward call) (hx : x ∈ call.after.preorder w) : x ∉ v.left call := by
  intro hleft
  obtain ⟨u, hu, hxu⟩ := Graph.mem_due.1 (h.left_subset_due hleft)
  have hnodup := h.reach_nodup
  rw [← h.due_after] at hnodup
  have hsame := eq_of_mem_due hnodup hw (h.sound.subset hu) hx hxu
  exact hout (hsame ▸ hu)

end Fits

end Visitor

end MarkdownTree
