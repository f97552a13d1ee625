import MarkdownTree.Proofs.Script
import MarkdownTree.Proofs.Splice

/-!
# Visits with single edits

A callback may put nodes into the row of its node at one place, take one node out of it, or replace the node that it is
called on (`SingleEdit`).  If nodes come in with finitely many calls only, the visit comes to its end and calls on all
that matches just once (`Visitor.visit_singleEdits`).  Without a bound on such calls it need not: replacements
alone, each by a single node, can keep it going without end (`Visitor.visit_singleEdits_endless`).
-/

namespace MarkdownTree

/-- What may become of a row by one edit at a node: nodes are put in at one place, a node is taken out, or the node is
replaced by another one. No node that is put in stood in the row. -/
inductive SingleEdit (node : NodeId) : List NodeId → List NodeId → Prop where
  | keep (row : List NodeId) : SingleEdit node row row
  | insert (xs new ys : List NodeId) (hnew : ∀ n ∈ new, n ∉ xs ++ ys) : SingleEdit node (xs ++ ys) (xs ++ new ++ ys)
  | remove (xs : List NodeId) (n : NodeId) (ys : List NodeId) : SingleEdit node (xs ++ n :: ys) (xs ++ ys)
  | replace (xs : List NodeId) (new : NodeId) (ys : List NodeId) (hnew : new ∉ xs ++ node :: ys) :
      SingleEdit node (xs ++ node :: ys) (xs ++ new :: ys)

namespace SingleEdit

variable {node : NodeId} {row row' walked far : List NodeId}

private theorem reverse (h : SingleEdit node row row') : SingleEdit node row.reverse row'.reverse := by
  cases h with
  | keep => exact .keep _
  | insert xs new ys hnew =>
    rw [List.reverse_append, List.reverse_append, List.reverse_append, ← List.append_assoc]
    refine .insert _ _ _ fun n hn hmem => hnew n (List.mem_reverse.1 hn) ?_
    rw [← List.reverse_append] at hmem
    exact List.mem_reverse.1 hmem
  | remove xs n ys =>
    rw [List.reverse_append, List.reverse_append, List.reverse_cons, List.append_assoc]
    exact .remove _ _ _
  | replace xs new ys hnew =>
    rw [List.reverse_append, List.reverse_append, List.reverse_cons, List.reverse_cons, List.append_assoc,
      List.append_assoc]
    refine .replace _ _ _ fun hmem => hnew ?_
    rw [← List.mem_reverse, List.reverse_append, List.reverse_cons, List.append_assoc]
    exact hmem

private theorem orient (h : SingleEdit node row row') (backwards : Bool) :
    SingleEdit node (MarkdownTree.orient backwards row) (MarkdownTree.orient backwards row') := by
  cases backwards with
  | false => exact h
  | true => exact h.reverse

private theorem nodup (h : SingleEdit node row row') (hrow : row.Nodup)
    (hfresh : (row'.filter fun n => n ∉ row).Nodup) :
    row'.Nodup := by
  cases h with
  | keep => exact hrow
  | insert xs new ys hnew =>
    have hall : new.filter (fun n => n ∉ xs ++ ys) = new :=
      List.filter_eq_self.2 fun n hn => decide_eq_true (hnew n hn)
    have hsub := ((List.sublist_append_right xs new).trans (List.sublist_append_left _ ys)).filter fun n => n ∉ xs ++ ys
    rw [hall] at hsub
    have hperm : (xs ++ new ++ ys).Perm (new ++ (xs ++ ys)) := by
      rw [List.append_assoc]
      exact List.perm_append_comm_assoc _ _ _
    exact hperm.nodup_iff.2 (List.nodup_append'.2 ⟨hfresh.sublist hsub, hrow, fun n hn hmem => hnew n hn hmem⟩)
  | remove xs n ys => exact hrow.sublist ((List.sublist_cons_self n ys).append_left xs)
  | replace xs new ys hnew =>
    refine List.perm_middle.nodup_iff.2 (List.nodup_cons.2 ⟨fun hmem => hnew ?_, ?_⟩)
    · rcases List.mem_append.1 hmem with hmem | hmem
      · exact List.mem_append_left _ hmem
      · exact List.mem_append_right _ (List.mem_cons_of_mem _ hmem)
    · exact hrow.sublist ((List.sublist_cons_self node ys).append_left xs)

/-- In a row in which none stands twice, an edit at a node leaves it there with something far, takes it out, or puts one
in its place. -/
theorem split (h : SingleEdit node (walked ++ node :: far) row') (hnodup : (walked ++ node :: far).Nodup) :
    (∃ walked' far', row' = walked' ++ node :: far' ∧ (∀ n ∈ far', n ∈ far ∨ n ∉ walked ++ node :: far) ∧
      ∀ n ∈ far, n ∉ far' → n ∉ row') ∨
    row' = walked ++ far ∨ ∃ new, new ∉ walked ++ node :: far ∧ row' = walked ++ new :: far := by
  generalize hrow : walked ++ node :: far = row at h hnodup ⊢
  cases h with
  | keep => exact .inl ⟨walked, far, hrow.symm, fun n hn => .inl hn, fun n hn hn' => absurd hn hn'⟩
  | insert xs new ys hnew =>
    rcases append_eq_append_cons hrow.symm with ⟨mid, -, rfl⟩ | ⟨mid, rfl, rfl⟩
    · exact .inl ⟨xs ++ new ++ mid, far, by simp, fun n hn => .inl hn, fun n hn hn' => absurd hn hn'⟩
    · refine .inl ⟨walked, mid ++ new ++ ys, by simp, fun n hn => ?_, fun n hn hn' => absurd ?_ hn'⟩
      · rcases List.mem_append.1 hn with hn | hn
        · exact (List.mem_append.1 hn).imp (List.mem_append_left ys) (hnew n)
        · exact .inl (List.mem_append_right mid hn)
      · exact ((List.sublist_append_left mid new).append_right ys).subset hn
  | remove xs m ys =>
    rcases append_eq_append_cons hrow.symm with ⟨mid, rfl, hmid⟩ | ⟨mid, rfl, rfl⟩
    · cases mid with
      | nil =>
        obtain ⟨rfl, rfl⟩ := List.cons.inj hmid
        exact .inr (.inl (by rw [List.append_nil]))
      | cons k mid =>
        obtain ⟨rfl, rfl⟩ := List.cons.inj hmid
        exact .inl ⟨xs ++ mid, far, by simp, fun n hn => .inl hn, fun n hn hn' => absurd hn hn'⟩
    · refine .inl ⟨walked, mid ++ ys, by simp, fun n hn => .inl ?_, fun n hn hn' => ?_⟩
      · exact (List.sublist_cons_self m ys |>.append_left mid).subset hn
      · have hsame : n = m := (List.mem_cons.1 (List.perm_middle.subset hn)).resolve_right hn'
        exact hsame ▸ (List.nodup_cons.1 (List.perm_middle.nodup_iff.1 hnodup)).1
  | replace xs new ys hnew =>
    have honce : node ∉ xs ++ ys := (List.nodup_cons.1 (List.perm_middle.nodup_iff.1 hnodup)).1
    obtain ⟨rfl, -, rfl⟩ := (List.append_cons_inj_of_notMem (fun h => honce (List.mem_append_left _ h))
      fun h => honce (List.mem_append_right _ h)).1 hrow.symm
    exact .inr (.inr ⟨new, hnew, rfl⟩)

end SingleEdit

namespace Call

/-- A call that lets the walk go on and makes no more than one edit, to the row of its node. -/
structure EditsOnce (test : NodeTest) (call : Call) : Prop extends call.Edits test where
  row : SingleEdit call.node (call.row call.before) (call.row call.after)

/-- The siblings that are ahead when a call is over: behind the node in the order of the walk, or, if it is gone, those
that were. -/
def following (backwards : Bool) (call : Call) : List NodeId :=
  let row := orient backwards (call.row (if call.node ∈ call.row call.after then call.after else call.before))
  row.drop (row.idxOf call.node + 1)

end Call

namespace Visitor

variable {σ : Type} {v : Visitor σ} {call : Call}

private theorem drop_idxOf {row walked far : List NodeId} {node : NodeId} (hrow : row = walked ++ node :: far)
    (hnode : node ∉ walked) : row.drop (row.idxOf node + 1) = far := by
  rw [hrow, List.idxOf_append_of_notMem hnode, List.idxOf_cons_self, Nat.add_zero, List.append_cons]
  exact List.drop_left' List.length_append

/-- After an edit that leaves the node of a call there, a walk goes on with those that are ahead of it. -/
private theorem ways_of_stays {seat : Seat} (hseat : call.seat = some seat) (hedits : call.Edits v.test)
    (hnodup : (call.row call.after).Nodup) {walked far : List NodeId}
    (hafter : orient v.backwards (call.row call.after) = walked ++ call.node :: far)
    (hnew : ∀ n ∈ far, n ∈ v.far call ∨ n ∉ call.row call.before)
    (hkept : ∀ n ∈ v.far call, n ∉ far → n ∉ call.row call.after) :
    v.onward call = call.following v.backwards ∧ v.Stays call := by
  obtain ⟨hheir, honward⟩ := target_of_stays hseat (hedits.items_row hseat) hafter hnodup
  have hdistinct : (walked ++ call.node :: far).Nodup := hafter ▸ orient_nodup.2 hnodup
  obtain ⟨-, hahead, hapart⟩ := List.nodup_append'.1 hdistinct
  have hmem {n : NodeId} (hn : n ∈ call.node :: far) : n ∈ call.row call.after :=
    mem_orient.1 (hafter.symm ▸ List.mem_append_right _ hn)
  refine ⟨?_, hheir, honward ▸ hahead, ?_, ?_⟩
  · rw [honward, Call.following, if_pos (hmem List.mem_cons_self)]
    exact (drop_idxOf hafter fun hwalked => hapart hwalked List.mem_cons_self).symm
  · rw [honward]
    intro n hn
    refine List.mem_append.2 ((hnew n hn).imp_right fun hout => ?_)
    exact List.mem_filter.2 ⟨hmem (List.mem_cons_of_mem _ hn), decide_eq_true hout⟩
  · rw [honward]
    exact fun n hn hstill => not_not.1 fun hout => hkept n hn hout hstill

/-- When the node of a call is gone, those are ahead that were. -/
private theorem following_of_gone {walked : List NodeId} (hsituated : call.Situated)
    (hrow : orient v.backwards (call.row call.before) = walked ++ call.node :: v.far call)
    (hgone : call.node ∉ call.row call.after) : call.following v.backwards = v.far call := by
  rw [Call.following, if_neg hgone]
  exact drop_idxOf hrow fun h => notMem_of_orient_row hsituated hrow (List.mem_append_left _ h)

section Gone

variable {seat : Seat} {walked : List NodeId} (hsituated : call.Situated) (hseat : call.seat = some seat)
  (hedits : call.Edits v.test) (hnodup : (call.row call.after).Nodup)
  (hrow : orient v.backwards (call.row call.before) = walked ++ call.node :: v.far call)
  (hindex : seat.index = divide v.backwards walked (v.far call))

include hsituated hseat hedits hnodup hrow hindex

/-- After an edit that takes the node of a call out, a walk goes on with those that were ahead. -/
private theorem ways_of_removed (hafter : orient v.backwards (call.row call.after) = walked ++ v.far call) :
    v.onward call = call.following v.backwards ∧ call.fresh = [] ∧ v.Departs call [] := by
  have hgone : call.node ∉ call.row call.after := fun h =>
    notMem_of_orient_row hsituated hrow (hafter ▸ mem_orient.2 h)
  obtain ⟨honward, hdeparts⟩ :=
    departs_of_removed hsituated hseat (hedits.items_row hseat) hrow hindex hnodup hgone hafter
  refine ⟨by rw [honward, following_of_gone hsituated hrow hgone], ?_, hdeparts⟩
  have hperm := hdeparts.perm
  rw [honward] at hperm
  exact List.nil_perm.1 ((List.perm_append_left_iff _).1 (List.perm_append_comm.trans hperm))

/-- After an edit that puts one node in the place of the node of a call, a walk goes into that one, and on as well. -/
private theorem ways_of_replaced {new : NodeId} (hnew : new ∉ walked ++ call.node :: v.far call)
    (hafter : orient v.backwards (call.row call.after) = walked ++ new :: v.far call) :
    v.onward call = call.following v.backwards ∧ call.fresh = [new] ∧ v.Departs call [new] := by
  have hgone : call.node ∉ call.row call.after := by
    intro h
    have h : call.node ∈ walked ++ new :: v.far call := hafter ▸ mem_orient.2 h
    refine notMem_of_orient_row hsituated hrow
      ((List.mem_cons.1 (List.perm_middle.subset h)).resolve_left fun hsame => ?_)
    exact hnew (hsame ▸ List.mem_append_right _ List.mem_cons_self)
  have hfresh : call.fresh = [new] := by
    have hperm := perm_far hsituated hrow hafter hnodup hgone (List.subset_cons_self _ _)
    exact List.perm_singleton.1 ((List.perm_append_left_iff _).1 (List.perm_append_comm.trans hperm)).symm
  have hskips : call.skips v.backwards = 1 := by
    rw [Call.skips, hfresh]
    exact ite_self 1
  obtain ⟨honward, hdeparts⟩ := departs_of_longer hsituated hseat (hedits.items_row hseat) hrow hindex hnodup hgone hafter
    (List.subset_cons_self _ _) (by rw [hfresh]; exact Nat.one_pos)
  rw [hskips] at honward hdeparts
  refine ⟨?_, hfresh, hdeparts⟩
  rw [following_of_gone hsituated hrow hgone]
  exact honward

end Gone

/-- After a single edit the node of a call is there, or it is gone and what came in is all that the walk misses. In both
cases it goes on with the siblings that are ahead. -/
private theorem ways_of_editsOnce (hedits : call.EditsOnce v.test) (hsituated : call.Situated) :
    v.onward call = call.following v.backwards ∧
      (v.Stays call ∧ ¬call.TakesOut call.node ∨ v.Departs call call.fresh ∧ ∀ y ∈ call.fresh, call.fresh = [y]) := by
  cases hseat : call.seat with
  | none =>
    have hrow (g : Graph) : call.row g = [] := by rw [Call.row, hseat]; rfl
    refine ⟨?_, .inl ⟨stays_of_start hseat, fun htakes => ?_⟩⟩
    · rw [Call.following, onward, rest, hseat, hrow]
      unfold orient
      cases v.backwards <;> rfl
    · exact List.not_mem_nil (hrow _ ▸ htakes.1)
  | some seat =>
    obtain ⟨walked, hrow, hindex⟩ := exists_orient_row (v := v) hsituated hseat
    have hnodup := hedits.row.nodup hsituated.nodup hsituated.fresh
    have hdistinct : (walked ++ call.node :: v.far call).Nodup := hrow ▸ orient_nodup.2 hsituated.nodup
    have hedit := hedits.row.orient v.backwards
    rw [hrow] at hedit
    rcases hedit.split hdistinct with ⟨walked', far, hafter, hnew, hkept⟩ | hafter | ⟨new, hnew, hafter⟩
    · obtain ⟨honward, hstays⟩ := ways_of_stays hseat hedits.toEdits hnodup hafter
        (fun n hn => (hnew n hn).imp_right fun h hbefore => h (hrow ▸ mem_orient.2 hbefore))
        fun n hn hout hstill => hkept n hn hout (mem_orient.2 hstill)
      refine ⟨honward, .inl ⟨hstays, fun htakes => htakes.2 ?_⟩⟩
      exact mem_orient.1 (hafter ▸ List.mem_append_right _ List.mem_cons_self)
    · obtain ⟨honward, hfresh, hdeparts⟩ := ways_of_removed hsituated hseat hedits.toEdits hnodup hrow hindex hafter
      rw [hfresh]
      exact ⟨honward, .inr ⟨hdeparts, fun y hy => absurd hy List.not_mem_nil⟩⟩
    · obtain ⟨honward, hfresh, hdeparts⟩ := ways_of_replaced hsituated hseat hedits.toEdits hnodup hrow hindex hnew hafter
      rw [hfresh]
      exact ⟨honward, .inr ⟨hdeparts, fun y hy => congrArg ([·]) (List.mem_singleton.1 hy).symm⟩⟩

theorem sound_of_editsOnce (hedits : call.EditsOnce v.test) (hsituated : call.Situated) : v.Sound call := by
  have hnodup := hedits.row.nodup hsituated.nodup hsituated.fresh
  rcases (ways_of_editsOnce hedits hsituated).2 with ⟨hstays, -⟩ | ⟨hdeparts, -⟩
  · exact hstays.sound hedits.toEdits hnodup
  · exact hdeparts.sound hsituated hedits.toEdits hnodup

/-- After a single edit a walk loses only what the edit takes out. -/
theorem takesOut_of_editsOnce (hedits : call.EditsOnce v.test) (hsituated : call.Situated) {w x : NodeId}
    (hloses : v.Loses call w x) : call.TakesOut w := by
  rcases (ways_of_editsOnce hedits hsituated).2 with ⟨hstays, -⟩ | ⟨hdeparts, -⟩
  · exact hstays.takesOut hsituated hloses
  · refine (hdeparts.takesOut hloses).resolve_right fun ⟨hfar, hfresh, _⟩ => ?_
    exact of_decide_eq_true (List.mem_filter.1 hfresh).2 (far_subset hsituated hfar)

/-- What is lost where calls only take nodes out: these, and all that is below them. -/
def takenOut (call : Call) (n _ : NodeId) : Prop :=
  call.TakesOut n

/-- A callback that makes no more than one edit with a call, each time to the row of the node that it is called on, and
that puts nodes in with finitely many calls only, lets the visit come to its end. No node is called on twice. All that
matches in the tree, or is ahead after a call, or is below it, is called on just once, unless a call takes it out before;
so are the nodes below a replacement, but the replacement itself is not called on, and neither is anything below a node
that its own call takes out. -/
theorem visit_singleEdits {top : NodeId} {s : σ} (htest : v.test.check = .ok ()) (htree : (v.graph s).IsTree top)
    (hedits : ∀ fuel, ∀ call ∈ v.calls fuel top s, call.EditsOnce v.test)
    (hfresh : ∀ fuel, ((v.graph s).preorder top ++ (v.calls fuel top s).flatMap Call.entered).Nodup)
    (hfinite : ∃ bound, ∀ fuel, ((v.calls fuel top s).filter Call.putsIn).length ≤ bound) :
    ∃ s' calls enough, (∀ fuel, enough ≤ fuel → v.visit fuel top s = .ok () s' ∧ v.calls fuel top s = calls) ∧
      (calls.map Call.node).Nodup ∧ v.MeetsAll takenOut calls (v.graph s) [top] ∧
      ∀ earlier call later, calls = earlier ++ call :: later →
        v.MeetsAll takenOut later call.after (call.following v.backwards) ∧
        (call.TakesOut call.node →
          (∀ y ∈ call.fresh, y ∉ calls.map Call.node ∧
            v.MeetsAll takenOut later call.after (call.after.childIds y)) ∧
          ∀ x ∈ call.before.preorder call.node, x ≠ call.node → x ∉ calls.map Call.node) := by
  obtain ⟨calls, s', enough, hvisit, hwalks, hnodup⟩ := exists_passage htest htree
    (fun fuel call hcall => sound_of_editsOnce (hedits fuel call hcall)) hfresh hfinite
  have honce {call : Call} (hcall : call ∈ calls) : call.EditsOnce v.test :=
    hedits enough call ((hvisit enough (Nat.le_refl _)).2 ▸ hcall)
  have hlost (call : Call) (hcall : call ∈ calls) (w x : NodeId) : v.Loses call w x → takenOut call w x :=
    takesOut_of_editsOnce (honce hcall) (hwalks.fits call hcall).situated
  refine ⟨s', calls, enough, hvisit, hwalks.nodup_nodes hnodup, hwalks.meetsAll hnodup hlost, ?_⟩
  intro earlier call later hcalls
  have hcall : call ∈ calls := hcalls ▸ List.mem_append_right _ List.mem_cons_self
  have hfits := hwalks.fits call hcall
  obtain ⟨hfollowing, hways⟩ := ways_of_editsOnce (honce hcall) hfits.situated
  refine ⟨?_, fun htakes => ?_⟩
  · exact hwalks.meetsAll_after hnodup hlost hcalls (hfollowing ▸ List.subset_append_right _ _)
  obtain ⟨hdeparts, hsingle⟩ := hways.resolve_left fun h => h.2 htakes
  refine ⟨fun y hy => ⟨hdeparts.never_called hwalks hnodup hcall hy, ?_⟩, fun x => ?_⟩
  · exact hdeparts.meetsAll_inside hwalks hnodup hlost hcalls (by rw [hsingle y hy]; rfl)
  · exact hdeparts.never_called_own hwalks hnodup hcall

/-- What becomes of two emphases: the first one is replaced by strong emphasis around a third one, a fourth one is put in
before that, and the second one is taken out. -/
def revisions : Nat → List (Kind × List NodeId)
  | 0 => [(.root, [1, 2]), (.emphasis, []), (.emphasis, [])]
  | 1 => [(.root, [3, 2]), (.emphasis, []), (.emphasis, []), (.strong, [4]), (.emphasis, [])]
  | 2 => [(.root, [3, 2]), (.emphasis, []), (.emphasis, []), (.strong, [5, 4]), (.emphasis, []), (.emphasis, [])]
  | _ => [(.root, [3]), (.emphasis, []), (.emphasis, []), (.strong, [5, 4]), (.emphasis, []), (.emphasis, [])]

/-- A visitor that makes these revisions. -/
def reviser : Visitor Nat :=
  .scripted (fun k => .sketch (revisions k)) (.kind "emphasis") false

private theorem calls_reviser : reviser.calls 20 0 0 =
    [⟨1, some ⟨0, 0⟩, .sketch (revisions 0), .sketch (revisions 1), .ok .proceed⟩,
      ⟨4, some ⟨0, 3⟩, .sketch (revisions 1), .sketch (revisions 2), .ok .proceed⟩,
      ⟨2, some ⟨1, 0⟩, .sketch (revisions 2), .sketch (revisions 3), .ok .proceed⟩] :=
  rfl

private theorem editsOnce_reviser : ∀ call ∈ reviser.calls 20 0 0, call.EditsOnce (.kind "emphasis") := by
  rw [calls_reviser]
  refine List.forall_mem_cons.2 ⟨?_, List.forall_mem_cons.2 ⟨?_, List.forall_mem_singleton.2 ?_⟩⟩
  · refine ⟨Call.edits_sketch (by decide) (fun q hq => by cases hq; decide) ?_, .replace [] 3 [2] (by decide)⟩
    exact List.forall_mem_singleton.2 (Graph.isTree_sketch (by decide) (by decide))
  · refine ⟨Call.edits_sketch (by decide) (fun q hq => by cases hq; decide) ?_, .insert [] [5] [4] (by decide)⟩
    exact List.forall_mem_singleton.2 (Graph.isTree_sketch (by decide) (by decide))
  · refine ⟨Call.edits_sketch (by decide) (fun q hq => by cases hq; decide) ?_, .remove [3] 2 []⟩
    exact fun n hn => absurd hn List.not_mem_nil

theorem visit_singleEdits_reviser : ∃ s' calls enough,
    (∀ fuel, enough ≤ fuel → reviser.visit fuel 0 0 = .ok () s' ∧ reviser.calls fuel 0 0 = calls) ∧
      (calls.map Call.node).Nodup ∧ reviser.MeetsAll takenOut calls (.sketch (revisions 0)) [0] := by
  have hgrows : ∀ fuel, reviser.calls fuel 0 0 <+: reviser.calls 20 0 0 :=
    calls_grows_of_ends rfl (show reviser.visit 20 0 0 = .ok () 3 from rfl)
  have hfresh (fuel : Nat) : ((reviser.graph 0).preorder 0 ++ (reviser.calls fuel 0 0).flatMap Call.entered).Nodup := by
    have hall : ((reviser.graph 0).preorder 0 ++ (reviser.calls 20 0 0).flatMap Call.entered).Nodup := by decide
    exact hall.sublist (((hgrows fuel).sublist.flatMap _).append_left _)
  obtain ⟨s', calls, enough, hvisit, hnodup, hmeets, -⟩ := visit_singleEdits (v := reviser) (s := 0) rfl
    (Graph.isTree_sketch (by decide) (by decide))
    (fun fuel call hcall => editsOnce_reviser call ((hgrows fuel).subset hcall)) hfresh
    ⟨3, fun fuel => (List.length_filter_le _ _).trans (hgrows fuel).length_le⟩
  exact ⟨s', calls, enough, hvisit, hnodup, hmeets⟩

/-- An emphasis below the root after so many replacements: each time the innermost emphasis was replaced by a new one
around another new one. -/
def ladder (k : Nat) : List (Kind × List NodeId) :=
  (List.range (2 * k + 2)).map fun i =>
    (if i = 0 then .root else .emphasis, if i % 2 = 0 then [if i < 2 * k then i + 2 else i + 1] else [])

/-- A visitor that makes these replacements. -/
def climber : Visitor Nat :=
  .scripted (fun k => .sketch (ladder k)) (.kind "emphasis") false

/-- The call with which it makes one of them. -/
def rung (k : Nat) : Call :=
  ⟨2 * k + 1, some ⟨0, 2 * k⟩, .sketch (ladder k), .sketch (ladder (k + 1)), .ok .proceed⟩

section Ladder

variable {k i : Nat}

private theorem length_ladder : (ladder k).length = 2 * k + 2 := by
  rw [ladder, List.length_map, List.length_range]

private theorem getElem?_ladder (h : i < 2 * k + 2) : (ladder k)[i]? =
    some (if i = 0 then .root else .emphasis, if i % 2 = 0 then [if i < 2 * k then i + 2 else i + 1] else []) := by
  rw [ladder, List.getElem?_map, List.getElem?_range h]
  rfl

private theorem childIds_ladder (h : i < 2 * k + 2) : (Graph.sketch (ladder k)).childIds i =
    if i % 2 = 0 then [if i < 2 * k then i + 2 else i + 1] else [] := by
  refine Graph.childIds_sketch (getElem?_ladder h) ?_
  split <;> rfl

/-- The innermost emphasis, and the node around it. -/
private theorem childIds_ladder_foot : (Graph.sketch (ladder k)).childIds (2 * k) = [2 * k + 1] := by
  rw [childIds_ladder (by omega), if_pos (by omega), if_neg (by omega)]

private theorem childIds_ladder_replaced : (Graph.sketch (ladder (k + 1))).childIds (2 * k) = [2 * k + 2] := by
  rw [childIds_ladder (by omega), if_pos (by omega), if_pos (by omega)]

private theorem preorder_ladder : (Graph.sketch (ladder (k + 1))).preorder (2 * k + 2) = [2 * k + 2, 2 * k + 3] := by
  have hfoot : (Graph.sketch (ladder (k + 1))).childIds (2 * k + 2) = [2 * k + 3] := childIds_ladder_foot
  have hend : (Graph.sketch (ladder (k + 1))).childIds (2 * k + 3) = [] := by
    rw [childIds_ladder (by omega), if_neg (by omega)]
  have hsize : (Graph.sketch (ladder (k + 1))).size = 2 * k + 4 := Graph.size_sketch.trans length_ladder
  rw [Graph.preorder, hsize, Graph.preorderTo, hfoot, List.flatMap_singleton, Graph.preorderTo, hend]
  rfl

private theorem fresh_rung : (rung k).fresh = [2 * k + 2] := by
  show List.filter (fun n => n ∉ (Graph.sketch (ladder k)).childIds (2 * k))
    ((Graph.sketch (ladder (k + 1))).childIds (2 * k)) = _
  rw [childIds_ladder_foot, childIds_ladder_replaced]
  exact List.filter_eq_self.2 (by simp)

private theorem entered_rung : (rung k).entered = [2 * k + 2, 2 * k + 3] := by
  rw [Call.entered, fresh_rung]
  exact (List.flatMap_singleton _ _).trans preorder_ladder

private theorem isTree_ladder : (Graph.sketch (ladder (k + 1))).IsTree (2 * k + 2) := by
  refine Graph.isTree_sketch (fun m hm => ?_) ?_
  · rw [preorder_ladder] at hm
    rw [length_ladder]
    rcases List.mem_pair.1 hm with rfl | rfl <;> omega
  · rw [preorder_ladder]
    simp

private theorem editsOnce_rung : (rung k).EditsOnce (.kind "emphasis") := by
  have hrow : SingleEdit (2 * k + 1) [2 * k + 1] [2 * k + 2] := .replace [] (2 * k + 2) [] (by simp)
  rw [← childIds_ladder_foot, ← childIds_ladder_replaced] at hrow
  refine ⟨Call.edits_sketch (fun n hn hparent => ?_) (fun q hq => ?_) (fun n hn => ?_), hrow⟩
  · have hne : n ≠ 2 * k := fun h => hparent (h ▸ rfl)
    rw [length_ladder] at hn
    rw [getElem?_ladder hn, getElem?_ladder (by omega)]
    by_cases heven : n % 2 = 0
    · have hlt : n < 2 * k := by omega
      rw [if_pos hlt, if_pos (show n < 2 * (k + 1) by omega)]
    · rw [if_neg heven, if_neg heven]
  · cases hq
    rw [length_ladder]
    show 2 * k < _
    omega
  · have hn : n ∈ (rung k).fresh := hn
    rw [fresh_rung, List.mem_singleton] at hn
    exact hn ▸ isTree_ladder

private theorem passes_ladder : (Graph.sketch (ladder k)).passes (.kind "emphasis") (2 * k + 1) = true := by
  rw [Graph.passes, Graph.kind?, Graph.cell?_sketch, getElem?_ladder (by omega), if_neg (Nat.succ_ne_zero _)]
  rfl

private theorem lead_climber :
    climber.lead (2 * k + 1) (some ⟨0, 2 * k⟩) (.sketch (ladder k)) (.sketch (ladder (k + 1))) =
    (some (.node (2 * k + 2)), .next) := by
  have hrow : (Graph.sketch (ladder (k + 1))).items (2 * k) = [2 * k + 2].map .node := by
    rw [Graph.items_sketch, childIds_ladder_replaced]
  refine climber.lead_of_taken hrow (by simp) ?_ rfl
  show ¬[2 * k + 2].length < ((Graph.sketch (ladder k)).items (2 * k)).length
  rw [Graph.items_sketch, childIds_ladder_foot]
  exact Nat.lt_irrefl 1

/-- The visit goes down from rung to rung and comes to no end. -/
private theorem descend_climber (fuel : Nat) : ∀ (k : Nat) (log : List Call), ∃ m,
    climber.recording.descend fuel (.node (2 * k)) .next (k, log) =
      .error .endless (k + m, log ++ (List.range' k m).map rung) := by
  have hstop (k : Nat) (log : List Call) :
      (EStateM.Result.error .endless (k, log) : EStateM.Result Fault (Nat × List Call) Outcome) =
        .error .endless (k + 0, log ++ (List.range' k 0).map rung) := by
    rw [List.range'_zero, List.map_nil, List.append_nil, Nat.add_zero]
  -- It takes three steps of fuel to make a call and be at the replacement, whose child is the next rung.
  induction fuel using Nat.strong_induction_on with
  | h fuel ih =>
    intro k log
    cases fuel with
    | zero => exact ⟨0, hstop k log⟩
    | succ fuel =>
      rw [descend_row (v := climber) (t := (k, log)) Graph.stray?_sketch]
      cases fuel with
      | zero => exact ⟨0, hstop k log⟩
      | succ fuel =>
        have hchild : ((Graph.sketch (ladder k)).items (2 * k))[0]? = some (.node (2 * k + 1)) := by
          rw [Graph.items_sketch, childIds_ladder_foot]
          rfl
        have hfrom : climber.recording.walkFrom (fuel + 1) (2 * k) 0 (k, log) = _ :=
          walkFrom_cons (v := climber) (t := (k, log)) (show ¬(0 : Int) < 0 by decide) hchild
        cases fuel with
        | zero => exact ⟨0, (bind_eq_of_error (hfrom.trans (bind_eq_of_error rfl))).trans (hstop k log)⟩
        | succ fuel =>
          have hwalk : climber.recording.walk (fuel + 1) (.node (2 * k + 1)) (some ⟨0, 2 * k⟩) (k, log) =
              climber.recording.descend fuel (.node (2 * (k + 1))) .next (k + 1, log ++ [rung k]) := by
            refine (climber.walk_matched (t := (k, log)) passes_ladder rfl).trans ?_
            show climber.recording.follow fuel (climber.lead (2 * k + 1) (some ⟨0, 2 * k⟩) (.sketch (ladder k))
              (.sketch (ladder (k + 1)))) (k + 1, log ++ [rung k]) = _
            rw [lead_climber]
            rfl
          obtain ⟨m, hm⟩ := ih fuel (by omega) (k + 1) (log ++ [rung k])
          refine ⟨m + 1, bind_eq_of_error (hfrom.trans (bind_eq_of_error (hwalk.trans (hm.trans ?_))))⟩
          rw [List.range'_succ, List.map_cons, List.append_assoc, Nat.add_right_comm, Nat.add_assoc k m 1]
          rfl

private theorem visit_climber (fuel : Nat) : ∃ m, climber.recording.visit fuel 0 (0, []) =
    .error .endless (m, (List.range' 0 m).map rung) := by
  cases fuel with
  | zero => exact ⟨0, rfl⟩
  | succ fuel =>
    obtain ⟨m, hm⟩ := descend_climber fuel 0 []
    have hwalk : climber.recording.walk (fuel + 1) (.node 0) none (0, []) = _ :=
      walk_unmatched (v := climber) (t := (0, []))
        (show ¬(Graph.sketch (ladder 0)).passes (.kind "emphasis") 0 = true by decide)
    refine ⟨m, ?_⟩
    rw [Nat.zero_add, List.nil_append] at hm
    exact (visit_eq rfl).trans (bind_eq_of_error (hwalk.trans hm))

private theorem nodes_ladder (m : Nat) : (climber.graph 0).preorder 0 ++
    ((List.range m).map rung).flatMap Call.entered =
    List.range (2 * m + 2) := by
  induction m with
  | zero => rfl
  | succ m ih =>
    rw [List.range_succ, List.map_append, List.flatMap_append, ← List.append_assoc, ih, List.map_singleton,
      List.flatMap_singleton, entered_rung]
    show _ = List.range (2 * m + 3 + 1)
    rw [List.range_succ (n := 2 * m + 3), List.range_succ (n := 2 * m + 2), List.append_assoc]
    rfl

end Ladder

/-- Replacements alone can keep a visit from its end, though nothing is ever put in beside the nodes that are there: each
call is on a new node below the last replacement. -/
theorem visit_singleEdits_endless :
    (Graph.sketch (ladder 0)).IsTree 0 ∧
    (∀ fuel, ∀ call ∈ climber.calls fuel 0 0,
      call.EditsOnce (.kind "emphasis") ∧ call.TakesOut call.node ∧ call.fresh.length = 1) ∧
    (∀ fuel, ((climber.graph 0).preorder 0 ++ (climber.calls fuel 0 0).flatMap Call.entered).Nodup) ∧
    ∀ fuel s', climber.visit fuel 0 0 ≠ .ok () s' := by
  have hcalls (fuel : Nat) : ∃ m, climber.calls fuel 0 0 = (List.range m).map rung := by
    obtain ⟨m, hm⟩ := visit_climber fuel
    exact ⟨m, by rw [calls, hm, List.range_eq_range']; rfl⟩
  refine ⟨Graph.isTree_sketch (by decide) (by decide), fun fuel call hcall => ?_, fun fuel => ?_,
    fun fuel s' hvisit => ?_⟩
  · obtain ⟨m, hm⟩ := hcalls fuel
    rw [hm] at hcall
    obtain ⟨k, -, rfl⟩ := List.mem_map.1 hcall
    refine ⟨editsOnce_rung, ?_, by rw [fresh_rung]; rfl⟩
    show 2 * k + 1 ∈ (Graph.sketch (ladder k)).childIds (2 * k) ∧
      2 * k + 1 ∉ (Graph.sketch (ladder (k + 1))).childIds (2 * k)
    rw [childIds_ladder_foot, childIds_ladder_replaced]
    simp
  · obtain ⟨m, hm⟩ := hcalls fuel
    rw [hm, nodes_ladder]
    exact List.nodup_range
  · obtain ⟨m, hm⟩ := visit_climber fuel
    have hforget := climber.visit_recording fuel 0 (0, [])
    rw [hm] at hforget
    cases hforget.trans hvisit

end Visitor

end MarkdownTree
