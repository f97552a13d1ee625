import MarkdownTree.Proofs.SingleEdit

/-!
# Visits with removals that do not shorten a row

A callback may take the node out that it is called on and put new ones in further ahead (`Call.Shifts`).  The row has not
got shorter then, and the walk takes what stands at the index of the node for its replacement: it calls neither on that
nor on what is before it, where the node had been (`Call.missed`).
-/

namespace MarkdownTree

namespace Call

/-- What stands, once a call is over, from the place of its node on in the order of a walk. -/
def place (backwards : Bool) (call : Call) : List NodeId :=
  (orient backwards (call.row call.after)).drop ((orient backwards (call.row call.before)).idxOf call.node)

/-- What a walk misses if the node is gone and the row has not got shorter: forwards what took the place of the node,
backwards as many as came in. -/
def missed (backwards : Bool) (call : Call) : List NodeId :=
  (call.place backwards).take (call.skips backwards)

/-- A call that takes its node out and puts new ones in further ahead, behind the one that takes its place; those that
were behind that one stay in their order. -/
structure Shifts (backwards : Bool) (test : NodeTest) (call : Call) : Prop extends call.Edits test where
  row : ∃ walked first far far', orient backwards (call.row call.before) = walked ++ call.node :: first :: far ∧
    orient backwards (call.row call.after) = walked ++ first :: far' ∧
    far'.filter (fun n => n ∈ call.row call.before) = far ∧ far' ≠ far

end Call

namespace Visitor

variable {σ : Type} {v : Visitor σ} {call : Call}

/-- A row in which neither what was there before nor what came in stands twice. -/
private theorem nodup_of_filter {row : List NodeId} {p : NodeId → Bool} (h : (row.filter p).Nodup)
    (h' : (row.filter fun n => !p n).Nodup) : row.Nodup := by
  refine (List.filter_append_perm p row).nodup_iff.1 (List.nodup_append'.2 ⟨h, h', fun n hn hn' => ?_⟩)
  have hp := (List.mem_filter.1 hn).2
  have hnot := (List.mem_filter.1 hn').2
  rw [hp] at hnot
  cases hnot

section Shifts

variable {walked far far' : List NodeId} {first : NodeId} (hsituated : call.Situated)
  (hbefore : orient v.backwards (call.row call.before) = walked ++ call.node :: v.far call)
  (hafter : orient v.backwards (call.row call.after) = walked ++ first :: far')
  (hfar : v.far call = first :: far'.filter fun n => n ∈ call.row call.before)

include hsituated hbefore hafter hfar

/-- After a shift the node of the call is gone, and no node stands twice in the row. -/
private theorem gone_of_shift : call.node ∉ call.row call.after ∧ (call.row call.after).Nodup := by
  have honce := notMem_of_orient_row hsituated hbefore
  rw [hfar] at honce hbefore
  have hstood {n : NodeId} (hn : n ∈ walked ++ call.node :: first :: far'.filter fun n => n ∈ call.row call.before) :
      n ∈ call.row call.before := mem_orient.1 (hbefore ▸ hn)
  refine ⟨fun hmem => honce ?_, nodup_of_filter (p := fun n => n ∈ call.row call.before) ?_ ?_⟩
  · have hmem : call.node ∈ walked ++ first :: far' := hafter ▸ mem_orient.2 hmem
    refine (List.mem_append.1 hmem).elim (List.mem_append_left _) fun hmem => List.mem_append_right _ ?_
    rcases List.mem_cons.1 hmem with hsame | hmem
    · exact hsame ▸ List.mem_cons_self
    · refine List.mem_cons_of_mem _ (List.mem_filter.2 ⟨hmem, decide_eq_true (hstood ?_)⟩)
      exact List.mem_append_right _ List.mem_cons_self
  · have hold : ((orient v.backwards (call.row call.after)).filter fun n => n ∈ call.row call.before) =
        walked ++ first :: far'.filter fun n => n ∈ call.row call.before := by
      have hfirst : first ∈ call.row call.before :=
        hstood (List.mem_append_right _ (List.mem_cons_of_mem _ List.mem_cons_self))
      rw [hafter, List.filter_append,
        List.filter_eq_self.2 fun n hn => decide_eq_true (hstood (List.mem_append_left _ hn)),
        List.filter_cons, if_pos (decide_eq_true hfirst)]
    refine ((orient_perm v.backwards _).filter _).nodup_iff.1 ?_
    have hdistinct : (walked ++ call.node :: first :: far'.filter fun n => n ∈ call.row call.before).Nodup :=
      hbefore ▸ orient_nodup.2 hsituated.nodup
    rw [hold]
    exact hdistinct.sublist ((List.sublist_cons_self _ _).append_left _)
  · have hfresh : ((call.row call.after).filter fun n => !decide (n ∈ call.row call.before)) = call.fresh :=
      List.filter_congr fun _ _ => decide_not.symm
    exact hfresh ▸ hsituated.fresh

end Shifts

private theorem departs_of_shifts (hshifts : call.Shifts v.backwards v.test) (hsituated : call.Situated) :
    (call.row call.after).Nodup ∧ v.Departs call (call.missed v.backwards) ∧
      call.missed v.backwards ++ v.onward call = call.place v.backwards := by
  obtain ⟨walked, first, far, far', hbefore, hafter, rfl, hnew⟩ := hshifts.row
  cases hseat : call.seat with
  | none =>
    have hrow : call.row call.before = [] := by rw [Call.row, hseat]; rfl
    have hstood : call.node ∈ call.row call.before :=
      mem_orient.1 (hbefore ▸ List.mem_append_right _ List.mem_cons_self)
    exact absurd (hrow ▸ hstood) List.not_mem_nil
  | some seat =>
    obtain ⟨walked', hrow, hindex⟩ := exists_orient_row (v := v) hsituated hseat
    have honce := notMem_of_orient_row hsituated hrow
    obtain ⟨rfl, -, hfar⟩ := (List.append_cons_inj_of_notMem (fun h => honce (List.mem_append_left _ h))
      fun h => honce (List.mem_append_right _ h)).1 (hrow.symm.trans hbefore)
    obtain ⟨hgone, hnodup⟩ := gone_of_shift hsituated hrow hafter hfar
    have hplace : call.place v.backwards = first :: far' := by
      rw [Call.place, hafter, hrow, List.idxOf_append_of_notMem fun h => honce (List.mem_append_left _ h),
        List.idxOf_cons_self, Nat.add_zero, List.drop_left]
    have hahead : v.far call ⊆ call.place v.backwards := by
      rw [hplace, hfar]
      exact List.cons_subset_cons _ List.filter_sublist.subset
    have hafter' : orient v.backwards (call.row call.after) = walked' ++ call.place v.backwards := hplace ▸ hafter
    have hcame : 0 < call.fresh.length := by
      have hlength := (perm_far hsituated hrow hafter' hnodup hgone hahead).length_eq
      rw [hplace, hfar, List.length_append, List.length_cons, List.length_cons] at hlength
      refine Nat.pos_of_ne_zero fun hnone => hnew ?_
      exact (List.filter_sublist.eq_of_length (by omega)).symm
    obtain ⟨honward, hdeparts⟩ := departs_of_longer hsituated hseat (hshifts.items_row hseat) hrow hindex hnodup hgone
      hafter' hahead hcame
    refine ⟨hnodup, hdeparts, ?_⟩
    rw [honward]
    exact List.take_append_drop _ _

/-- What is lost where calls take nodes out, or shift rows: all that is below what is taken out, and all that is below
what the walk misses, but for the last of it, of which only the node itself is lost. -/
def takenOrMissed (v : Visitor σ) (call : Call) (n x : NodeId) : Prop :=
  call.TakesOut n ∨ call.Shifts v.backwards v.test ∧ n ∈ call.missed v.backwards ∧
    ((call.missed v.backwards).getLast? = some n → x = n)

private theorem takenOrMissed_of_loses (hedits : call.EditsOnce v.test ∨ call.Shifts v.backwards v.test)
    (hsituated : call.Situated) {w x : NodeId} (hloses : v.Loses call w x) : v.takenOrMissed call w x := by
  rcases hedits with hedits | hshifts
  · exact .inl (takesOut_of_editsOnce hedits hsituated hloses)
  · exact ((departs_of_shifts hshifts hsituated).2.1.takesOut hloses).imp_right fun h => ⟨hshifts, h.2⟩

/-- A callback may also take the node out and put new ones in further ahead. The visit comes to its end, no node is called
on twice, and all else is met that matches in the tree or is ahead, unless a call takes it out or misses it before; but
what such a call misses is never called on, and what is below it is met only for the last one. So if no later call edits
a row, all that matches from the place of the node on is called on just once if and only if nothing of it is missed. -/
theorem visit_shifts {top : NodeId} {s : σ} (htest : v.test.check = .ok ()) (htree : (v.graph s).IsTree top)
    (hedits : ∀ fuel, ∀ call ∈ v.calls fuel top s, call.EditsOnce v.test ∨ call.Shifts v.backwards v.test)
    (hfresh : ∀ fuel, ((v.graph s).preorder top ++ (v.calls fuel top s).flatMap Call.entered).Nodup)
    (hfinite : ∃ bound, ∀ fuel, ((v.calls fuel top s).filter Call.putsIn).length ≤ bound) :
    ∃ s' calls enough, (∀ fuel, enough ≤ fuel → v.visit fuel top s = .ok () s' ∧ v.calls fuel top s = calls) ∧
      (calls.map Call.node).Nodup ∧ v.MeetsAll v.takenOrMissed calls (v.graph s) [top] ∧
      ∀ earlier call later, calls = earlier ++ call :: later → call.Shifts v.backwards v.test →
        ∃ onward, call.place v.backwards = call.missed v.backwards ++ onward ∧
          v.MeetsAll v.takenOrMissed later call.after onward ∧
          (∀ n ∈ call.missed v.backwards, n ∉ calls.map Call.node ∧
            if (call.missed v.backwards).getLast? = some n then
              v.MeetsAll v.takenOrMissed later call.after (call.after.childIds n)
            else ∀ x ∈ call.after.preorder n, x ∉ calls.map Call.node) ∧
          ((∀ call' ∈ later, call'.row call'.after = call'.row call'.before) →
            ((∀ n ∈ call.place v.backwards, call.after.passes v.test n = true → (later.map Call.node).count n = 1) ↔
              ∀ n ∈ call.missed v.backwards, ¬call.after.passes v.test n = true)) := by
  obtain ⟨calls, s', enough, hvisit, hwalks, hnodup⟩ := exists_passage htest htree (fun fuel call hcall hsituated =>
    (hedits fuel call hcall).elim (fun h => sound_of_editsOnce h hsituated) fun h =>
      (departs_of_shifts h hsituated).2.1.sound hsituated h.toEdits (departs_of_shifts h hsituated).1) hfresh hfinite
  have hlost (call : Call) (hcall : call ∈ calls) (w x : NodeId) : v.Loses call w x → v.takenOrMissed call w x := by
    have hedit := hedits enough call ((hvisit enough (Nat.le_refl _)).2 ▸ hcall)
    exact takenOrMissed_of_loses hedit (hwalks.fits call hcall).situated
  refine ⟨s', calls, enough, hvisit, hwalks.nodup_nodes hnodup, hwalks.meetsAll hnodup hlost, ?_⟩
  intro earlier call later hcalls hshifts
  have hcall : call ∈ calls := hcalls ▸ List.mem_append_right _ List.mem_cons_self
  obtain ⟨-, hdeparts, hplace⟩ := departs_of_shifts hshifts (hwalks.fits call hcall).situated
  have hnever {n : NodeId} (hn : n ∈ call.missed v.backwards) : n ∉ calls.map Call.node :=
    hdeparts.never_called hwalks hnodup hcall hn
  have honward := hwalks.meetsAll_after hnodup hlost hcalls (List.subset_append_right (v.inside call) (v.onward call))
  refine ⟨v.onward call, hplace.symm, honward, fun n hn => ⟨hnever hn, ?_⟩,
    fun hquiet => ⟨fun hall n hn hpass => ?_, ?_⟩⟩
  · split
    · rename_i hlast
      exact hdeparts.meetsAll_inside hwalks hnodup hlost hcalls hlast
    · rename_i hlast
      exact fun x => hdeparts.never_called_below hwalks hnodup hcall hn hlast
  · have hmem : n ∈ later.map Call.node := by
      refine List.count_pos_iff.1 ?_
      rw [hall n (hplace ▸ List.mem_append_left _ hn) hpass]
      exact Nat.one_pos
    refine hnever hn (List.map_subset _ ?_ hmem)
    exact hcalls ▸ fun _ h => List.mem_append_right _ (List.mem_cons_of_mem _ h)
  · intro hnone n hn hpass
    rw [← hplace] at hn
    have hahead := (List.mem_append.1 hn).resolve_left fun hn => hnone n hn hpass
    refine (honward n hahead n Graph.mem_preorder_self hpass).resolve_right ?_
    rintro ⟨-, call', hcall', w, hlost', -, -⟩
    have hsame := hquiet call' hcall'
    rcases hlost' with ⟨hstood, hgone⟩ | ⟨hshifts', -⟩
    · exact hgone (hsame.symm ▸ hstood)
    · have hfits := hwalks.fits call' (hcalls ▸ List.mem_append_right _ (List.mem_cons_of_mem _ hcall'))
      have hdeparts' := (departs_of_shifts hshifts' hfits.situated).2.1
      exact hdeparts'.gone (hsame.symm ▸ hdeparts'.stood)

/-- What becomes of three emphases: the last one is taken out, and two are put in ahead of the middle one. -/
def displacements : Nat → List (Kind × List NodeId)
  | 0 => [(.root, [1, 2, 3]), (.emphasis, []), (.emphasis, [4]), (.emphasis, []), (.emphasis, [])]
  | _ => [(.root, [1, 7, 5, 2]), (.emphasis, []), (.emphasis, [4]), (.emphasis, []), (.emphasis, []), (.emphasis, [6]),
      (.emphasis, []), (.emphasis, [])]

/-- A visitor from the end that makes this edit. -/
def displacer : Visitor Nat :=
  .scripted (fun k => .sketch (displacements k)) (.kind "emphasis") true

private theorem calls_displacer : displacer.calls 20 0 0 =
    [⟨3, some ⟨2, 0⟩, .sketch (displacements 0), .sketch (displacements 1), .ok .proceed⟩,
      ⟨6, some ⟨0, 5⟩, .sketch (displacements 1), .sketch (displacements 1), .ok .proceed⟩,
      ⟨7, some ⟨1, 0⟩, .sketch (displacements 1), .sketch (displacements 1), .ok .proceed⟩,
      ⟨1, some ⟨0, 0⟩, .sketch (displacements 1), .sketch (displacements 1), .ok .proceed⟩] :=
  rfl

private theorem shifts_displacer : Call.Shifts true (.kind "emphasis")
    ⟨3, some ⟨2, 0⟩, .sketch (displacements 0), .sketch (displacements 1), .ok .proceed⟩ := by
  refine ⟨Call.edits_sketch (by decide) (fun q hq => by cases hq; decide) ?_, [], 2, [1], [5, 7, 1], rfl, rfl, rfl,
    by decide⟩
  refine List.forall_mem_cons.2 ⟨?_, List.forall_mem_singleton.2 ?_⟩
  · exact Graph.isTree_sketch (by decide) (by decide)
  · exact Graph.isTree_sketch (by decide) (by decide)

/-- A call that leaves a sketch as it is. -/
private theorem editsOnce_still {rows : List (Kind × List NodeId)} {id : NodeId} {seat : Seat} {name : String}
    (hseat : seat.parent < rows.length) :
    Call.EditsOnce (.kind name) ⟨id, some seat, .sketch rows, .sketch rows, .ok .proceed⟩ := by
  refine ⟨Call.edits_sketch (fun _ _ _ => rfl) (fun q hq => by cases hq; exact hseat) (fun n hn => ?_), .keep _⟩
  obtain ⟨hmem, hout⟩ := List.mem_filter.1 hn
  exact absurd hmem (of_decide_eq_true hout)

theorem visit_shifts_displacer : ∃ s' calls enough,
    (∀ fuel, enough ≤ fuel → displacer.visit fuel 0 0 = .ok () s' ∧ displacer.calls fuel 0 0 = calls) ∧
      (calls.map Call.node).Nodup ∧
      displacer.MeetsAll displacer.takenOrMissed calls (.sketch (displacements 0)) [0] := by
  have hgrows : ∀ fuel, displacer.calls fuel 0 0 <+: displacer.calls 20 0 0 :=
    calls_grows_of_ends rfl (show displacer.visit 20 0 0 = .ok () 4 from rfl)
  have hedits : ∀ call ∈ displacer.calls 20 0 0,
      call.EditsOnce (.kind "emphasis") ∨ call.Shifts true (.kind "emphasis") := by
    rw [calls_displacer]
    refine List.forall_mem_cons.2 ⟨.inr shifts_displacer, List.forall_mem_cons.2 ⟨.inl ?_,
      List.forall_mem_cons.2 ⟨.inl ?_, List.forall_mem_singleton.2 (.inl ?_)⟩⟩⟩ <;> exact editsOnce_still (by decide)
  have hfresh (fuel : Nat) :
      ((displacer.graph 0).preorder 0 ++ (displacer.calls fuel 0 0).flatMap Call.entered).Nodup := by
    have hall : ((displacer.graph 0).preorder 0 ++ (displacer.calls 20 0 0).flatMap Call.entered).Nodup := by decide
    exact hall.sublist (((hgrows fuel).sublist.flatMap _).append_left _)
  obtain ⟨s', calls, enough, hvisit, hnodup, hmeets, -⟩ := visit_shifts (v := displacer) (s := 0) rfl
    (Graph.isTree_sketch (by decide) (by decide))
    (fun fuel call hcall => hedits call ((hgrows fuel).subset hcall)) hfresh
    ⟨4, fun fuel => (List.length_filter_le _ _).trans (hgrows fuel).length_le⟩
  exact ⟨s', calls, enough, hvisit, hnodup, hmeets⟩

/-- What becomes of two texts: the first one is taken out, and one is put in behind the second one. -/
def successions : Nat → List (Kind × List NodeId)
  | 0 => [(.root, [1, 2]), (.text, []), (.text, [])]
  | _ => [(.root, [2, 3]), (.text, []), (.text, []), (.text, [])]

/-- A visitor that makes this edit. -/
def successor : Visitor Nat :=
  .scripted (fun k => .sketch (successions k)) (.kind "text") false

private theorem calls_successor : successor.calls 20 0 0 =
    [⟨1, some ⟨0, 0⟩, .sketch (successions 0), .sketch (successions 1), .ok .proceed⟩,
      ⟨3, some ⟨1, 0⟩, .sketch (successions 1), .sketch (successions 1), .ok .proceed⟩] :=
  rfl

/-- The node that takes the place of one that is taken out is never called on, though it matches and nothing is done to
it. -/
theorem visit_shifts_misses : (Graph.sketch (successions 0)).IsTree 0 ∧ successor.visit 20 0 0 = .ok () 2 ∧
    ((successor.graph 0).preorder 0 ++ (successor.calls 20 0 0).flatMap Call.entered).Nodup ∧
    ∃ call later, successor.calls 20 0 0 = call :: later ∧ call.Shifts false (.kind "text") ∧
      (∀ call' ∈ later, call'.EditsOnce (.kind "text") ∧ call'.row call'.after = call'.row call'.before) ∧
      ∃ n ∈ call.place false, call.after.passes (.kind "text") n = true ∧
        n ∉ (successor.calls 20 0 0).map Call.node := by
  refine ⟨Graph.isTree_sketch (by decide) (by decide), rfl, by decide, _, _, calls_successor, ?_, ?_, 2, by decide,
    by decide, ?_⟩
  · refine ⟨Call.edits_sketch (by decide) (fun q hq => by cases hq; decide) ?_, [], 2, [], [3], rfl, rfl, rfl,
      by decide⟩
    exact List.forall_mem_singleton.2 (Graph.isTree_sketch (by decide) (by decide))
  · exact List.forall_mem_singleton.2 ⟨editsOnce_still (by decide), rfl⟩
  · rw [calls_successor]
    decide

end Visitor

end MarkdownTree
