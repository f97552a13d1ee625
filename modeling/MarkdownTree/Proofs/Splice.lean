import MarkdownTree.Proofs.Passage

/-!
# Splices

What a callback does to the row of its node, told in the order of the walk: what has been walked, the node, and what is
far (`Visitor.exists_orient_row`).  From the row after the call alone the walk makes out where to go on: behind the node,
if it is still there (`Visitor.Stays`); with what was far, if the row is shorter; and otherwise behind whatever stands
where the node stood, so that it misses some of what is ahead (`Visitor.Departs`).
-/

namespace MarkdownTree

/-- How many of the siblings that are ahead a walk misses if the node is gone and others came in: one forwards, and
backwards as many as came in. -/
def Call.skips (backwards : Bool) (call : Call) : Nat :=
  if backwards then call.fresh.length else 1

/-- A call takes a node out of the row. -/
def Call.TakesOut (call : Call) (n : NodeId) : Prop :=
  n ∈ call.row call.before ∧ n ∉ call.row call.after

namespace Visitor

variable {σ : Type} {v : Visitor σ}

/-! ### Rows in the order of a walk -/

section Orient

variable {α : Type} {xs before after : List α} {x : α} {i : Nat}

/-- The index at which a row is divided into what a walk has behind it and what it has ahead. -/
def divide (backwards : Bool) (before after : List α) : Nat :=
  if backwards then after.length else before.length

private theorem getElem?_divide {backwards : Bool} (h : orient backwards xs = before ++ x :: after) :
    xs[divide backwards before after]? = some x := by
  unfold orient at h
  unfold divide
  cases backwards with
  | false =>
    simp only [Bool.false_eq_true, if_false] at h ⊢
    rw [h, List.getElem?_append_right (Nat.le_refl _), Nat.sub_self]
    rfl
  | true =>
    simp only [if_true] at h ⊢
    rw [List.reverse_eq_iff.1 h, List.reverse_append, List.reverse_cons, List.append_assoc,
      List.getElem?_append_right (by rw [List.length_reverse]), List.length_reverse, Nat.sub_self]
    rfl

private theorem ahead_joint (h : orient v.backwards xs = before ++ after) :
    ahead v.backwards xs (if v.backwards then (divide v.backwards before after : Int) - 1
      else divide v.backwards before after) = after := by
  unfold orient at h
  unfold divide
  cases hbackwards : v.backwards with
  | false =>
    rw [hbackwards, if_neg Bool.false_ne_true] at h
    rw [if_neg Bool.false_ne_true, if_neg Bool.false_ne_true, ahead_forwards, h, List.drop_left]
  | true =>
    rw [hbackwards, if_pos rfl] at h
    have hxs : xs = after.reverse ++ before.reverse := by rw [List.reverse_eq_iff.1 h, List.reverse_append]
    have hlength : after.length ≤ xs.length := by
      rw [hxs, List.length_append, List.length_reverse]
      exact Nat.le_add_right _ _
    rw [if_pos rfl, if_pos rfl, ahead_backwards hlength, hxs, List.take_left' List.length_reverse, List.reverse_reverse]

private theorem ahead_divide (h : orient v.backwards xs = before ++ x :: after) :
    ahead v.backwards xs (v.step (divide v.backwards before after)) = after := by
  rw [List.append_cons] at h
  have hjoint := ahead_joint h
  unfold divide at hjoint ⊢
  unfold step
  cases hbackwards : v.backwards with
  | false =>
    rw [hbackwards, if_neg Bool.false_ne_true, if_neg Bool.false_ne_true, List.length_append] at hjoint
    exact hjoint
  | true =>
    rw [hbackwards] at hjoint
    exact hjoint

/-- A row is what a walk has behind it, the item at which it is, and what it has ahead. -/
private theorem exists_orient_eq (hx : xs[i]? = some x) : ∃ before,
    orient v.backwards xs = before ++ x :: ahead v.backwards xs (v.step i) ∧
      i = divide v.backwards before (ahead v.backwards xs (v.step i)) := by
  have hsplit : ∃ before after, orient v.backwards xs = before ++ x :: after ∧ i = divide v.backwards before after := by
    obtain ⟨hlt, rfl⟩ := List.getElem?_eq_some_iff.1 hx
    unfold orient divide
    cases v.backwards with
    | false =>
      refine ⟨xs.take i, xs.drop (i + 1), ?_, (List.length_take_of_le (Nat.le_of_lt hlt)).symm⟩
      rw [if_neg Bool.false_ne_true, ← List.drop_eq_getElem_cons hlt, List.take_append_drop]
    | true =>
      refine ⟨(xs.drop (i + 1)).reverse, (xs.take i).reverse, ?_, ?_⟩
      · have hxs : xs.take i ++ xs[i] :: xs.drop (i + 1) = xs := by
          rw [← List.drop_eq_getElem_cons hlt, List.take_append_drop]
        have hreverse := congrArg List.reverse hxs
        rw [List.reverse_append, List.reverse_cons, List.append_assoc] at hreverse
        exact hreverse.symm
      · rw [if_pos rfl, List.length_reverse, List.length_take_of_le (Nat.le_of_lt hlt)]
  obtain ⟨before, after, h, hi⟩ := hsplit
  have hafter := ahead_divide h
  rw [← hi] at hafter
  exact ⟨before, by rw [hafter, h], by rw [hafter, hi]⟩

theorem orient_nodup {backwards : Bool} : (orient backwards xs).Nodup ↔ xs.Nodup :=
  (orient_perm backwards xs).nodup_iff

theorem mem_orient {backwards : Bool} : x ∈ orient backwards xs ↔ x ∈ xs :=
  (orient_perm backwards xs).mem_iff

private theorem length_orient {backwards : Bool} : (orient backwards xs).length = xs.length :=
  (orient_perm backwards xs).length_eq

end Orient

/-! ### The row of a call -/

section Row

variable {call : Call} {seat : Seat}

/-- In the order of the walk a row is what has been walked, the node of the call, and what is far. -/
theorem exists_orient_row (hsituated : call.Situated) (hseat : call.seat = some seat) : ∃ walked,
    orient v.backwards (call.row call.before) = walked ++ call.node :: v.far call ∧
      seat.index = divide v.backwards walked (v.far call) := by
  have hfar : v.far call = ahead v.backwards (call.row call.before) (v.step seat.index) := by
    rw [far, rest, hseat, Call.row_of_seat hseat]
    rfl
  rw [hfar]
  exact exists_orient_eq (Call.row_of_seat hseat _ ▸ hsituated.stands seat hseat)

variable (hsituated : call.Situated) (hseat : call.seat = some seat)
  (hitems : call.after.items seat.parent = (call.row call.after).map .node)

include hseat

private theorem onward_eq :
    v.onward call = ahead v.backwards (call.row call.after) (v.after seat.index (v.target call).2) := by
  rw [onward, rest, hseat, Call.row_of_seat hseat]
  rfl

private theorem target_eq : v.target call = v.lead call.node (some seat) call.before call.after := by
  rw [target, hseat]

private theorem length_items (hsituated : call.Situated) :
    (call.before.items seat.parent).length = (call.row call.before).length := by
  rw [hsituated.items seat hseat, List.length_map, Call.row_of_seat hseat]

include hitems

/-- Where the node is still there, a walk goes into it and on behind it. -/
theorem target_of_stays {walked far : List NodeId}
    (hrow : orient v.backwards (call.row call.after) = walked ++ call.node :: far)
    (hnodup : (call.row call.after).Nodup) : v.heir call = some call.node ∧ v.onward call = far := by
  have hmem : call.node ∈ call.row call.after :=
    mem_orient.1 (hrow ▸ List.mem_append_right _ List.mem_cons_self)
  obtain ⟨j, hj, hfst, hsnd⟩ := v.lead_of_mem call.before hitems hmem
  have hdivide : j = divide v.backwards walked far := by
    have hget := getElem?_divide hrow
    exact (List.getElem?_inj (List.getElem?_eq_some_iff.1 hj).1 hnodup).1 (hj.trans hget.symm)
  refine ⟨?_, ?_⟩
  · rw [heir, target_eq hseat, hfst]
    rfl
  · rw [onward_eq hseat, target_eq hseat, hsnd, hdivide]
    exact ahead_divide hrow

include hsituated

/-- Where the row has got shorter and the node is gone, a walk goes on with what was far. -/
private theorem target_of_removed {walked : List NodeId}
    (hlength : (call.row call.after).length < (call.row call.before).length)
    (hafter : orient v.backwards (call.row call.after) = walked ++ v.far call) (hgone : call.node ∉ call.row call.after)
    (hindex : seat.index = divide v.backwards walked (v.far call)) :
    v.heir call = none ∧ v.onward call = v.far call := by
  rw [← length_items hseat hsituated] at hlength
  have htarget := (target_eq (v := v) hseat).trans (v.lead_of_shorter hitems hgone hlength)
  refine ⟨by rw [heir, htarget]; rfl, ?_⟩
  rw [onward_eq hseat, htarget, hindex]
  exact ahead_joint hafter

/-- Where the node is gone and the row has not got shorter, a walk takes what stands in its place for its replacement. -/
private theorem target_of_taken {walked far : List NodeId} {n : NodeId}
    (hafter : orient v.backwards (call.row call.after) = walked ++ n :: far) (hgone : call.node ∉ call.row call.after)
    (hlength : (call.row call.before).length ≤ (call.row call.after).length)
    (hindex : seat.index = divide v.backwards walked far) : v.heir call = some n ∧ v.onward call = far := by
  rw [← length_items hseat hsituated] at hlength
  have hget : (call.row call.after)[seat.index]? = some n := hindex ▸ getElem?_divide hafter
  have htarget := (target_eq (v := v) hseat).trans (v.lead_of_taken hitems hgone (Nat.not_lt.2 hlength) hget)
  refine ⟨by rw [heir, htarget]; rfl, ?_⟩
  rw [onward_eq hseat, htarget, hindex]
  exact ahead_divide hafter

end Row

/-! ### Two ways of a splice -/

/-- The node of a call is still there, and the walk goes on with those that are ahead of it now. -/
structure Stays (v : Visitor σ) (call : Call) : Prop where
  heir : v.heir call = some call.node
  distinct : (call.node :: v.onward call).Nodup
  subset : v.onward call ⊆ v.far call ++ call.fresh
  kept : ∀ n ∈ v.far call, n ∈ call.row call.after → n ∈ v.onward call

/-- The node of a call is gone, and of those that are ahead now the walk misses some: it goes into the last one of them
and on with the others. -/
structure Departs (v : Visitor σ) (call : Call) (missed : List NodeId) : Prop where
  stood : call.node ∈ call.row call.before
  gone : call.node ∉ call.row call.after
  heir : v.heir call = missed.getLast?
  perm : (missed ++ v.onward call).Perm (v.far call ++ call.fresh)

section Ways

variable {call : Call} {missed : List NodeId} {w x : NodeId}

/-- No node is ahead twice, and none that came in was. -/
private theorem nodup_ahead (hsituated : call.Situated) : (call.node :: (v.far call ++ call.fresh)).Nodup := by
  have hrow : (call.node :: v.far call).Nodup ∧ ∀ n ∈ call.node :: v.far call, n ∉ call.fresh := by
    cases hseat : call.seat with
    | none =>
      have hfar : v.far call = [] := by rw [far, rest, hseat]; rfl
      have hfresh : call.fresh = [] := by rw [Call.fresh, Call.row, Call.row, hseat]; rfl
      rw [hfar, hfresh]
      exact ⟨List.nodup_singleton _, fun _ _ => List.not_mem_nil⟩
    | some seat =>
      obtain ⟨walked, hrow, -⟩ := exists_orient_row (v := v) hsituated hseat
      have hsub : (call.node :: v.far call).Sublist (orient v.backwards (call.row call.before)) :=
        hrow ▸ List.sublist_append_right _ _
      refine ⟨(orient_nodup.2 hsituated.nodup).sublist hsub, fun n hn hfresh => ?_⟩
      exact of_decide_eq_true (List.mem_filter.1 hfresh).2 (mem_orient.1 (hsub.subset hn))
  rw [← List.cons_append]
  exact List.nodup_append'.2 ⟨hrow.1, hsituated.fresh, hrow.2⟩

/-- What is ahead of a node stands in its row. -/
theorem far_subset (hsituated : call.Situated) : v.far call ⊆ call.row call.before := by
  cases hseat : call.seat with
  | none =>
    have hfar : v.far call = [] := by rw [far, rest, hseat]; rfl
    rw [hfar]
    exact List.nil_subset _
  | some seat =>
    obtain ⟨walked, hrow, -⟩ := exists_orient_row (v := v) hsituated hseat
    exact fun n hn => mem_orient.1 (hrow ▸ List.mem_append_right _ (List.mem_cons_of_mem _ hn))

section Gone

variable {seat : Seat} {walked ahead : List NodeId} (hsituated : call.Situated) (hseat : call.seat = some seat)
  (hitems : call.after.items seat.parent = (call.row call.after).map .node)
  (hrow : orient v.backwards (call.row call.before) = walked ++ call.node :: v.far call)

include hsituated hrow

theorem notMem_of_orient_row : call.node ∉ walked ++ v.far call := by
  have hnodup : (walked ++ call.node :: v.far call).Nodup := hrow ▸ orient_nodup.2 hsituated.nodup
  exact (List.nodup_cons.1 (List.perm_middle.nodup_iff.1 hnodup)).1

/-- When the node of a call is gone and all that was ahead is there, nothing else is ahead than this and what came in. -/
theorem perm_far (hafter : orient v.backwards (call.row call.after) = walked ++ ahead)
    (hnodup : (call.row call.after).Nodup) (hgone : call.node ∉ call.row call.after) (hfar : v.far call ⊆ ahead) :
    ahead.Perm (v.far call ++ call.fresh) := by
  have hdistinct : (walked ++ ahead).Nodup := hafter ▸ orient_nodup.2 hnodup
  obtain ⟨-, hahead, hapart⟩ := List.nodup_append'.1 hdistinct
  have hbefore {n : NodeId} : n ∈ call.row call.before ↔ n ∈ walked ++ call.node :: v.far call := by
    rw [← hrow]
    exact mem_orient.symm
  have hmem {n : NodeId} : n ∈ call.row call.after ↔ n ∈ walked ++ ahead := by
    rw [← hafter]
    exact mem_orient.symm
  refine (List.perm_ext_iff_of_nodup hahead (List.nodup_cons.1 (nodup_ahead hsituated)).2).2 fun n =>
    ⟨fun hn => ?_, fun hn => ?_⟩
  · by_cases hold : n ∈ call.row call.before
    · refine List.mem_append_left _ ?_
      rcases List.mem_append.1 (hbefore.1 hold) with hwalked | hold
      · exact (hapart hwalked hn).elim
      · refine (List.mem_cons.1 hold).resolve_left fun hsame => hgone ?_
        exact hsame ▸ hmem.2 (List.mem_append_right _ hn)
    · exact List.mem_append_right _ (List.mem_filter.2 ⟨hmem.2 (List.mem_append_right _ hn), decide_eq_true hold⟩)
  · rcases List.mem_append.1 hn with hn | hn
    · exact hfar hn
    · obtain ⟨hn, hout⟩ := List.mem_filter.1 hn
      refine (List.mem_append.1 (hmem.1 hn)).resolve_left fun hwalked => of_decide_eq_true hout ?_
      exact hbefore.2 (List.mem_append_left _ hwalked)

include hseat hitems

/-- A walk misses nothing where the node of a call was just taken out. -/
theorem departs_of_removed (hindex : seat.index = divide v.backwards walked (v.far call))
    (hnodup : (call.row call.after).Nodup) (hgone : call.node ∉ call.row call.after)
    (hafter : orient v.backwards (call.row call.after) = walked ++ v.far call) :
    v.onward call = v.far call ∧ v.Departs call [] := by
  have hshorter : (call.row call.after).length < (call.row call.before).length := by
    have hbefore := congrArg List.length hrow
    have hafter := congrArg List.length hafter
    rw [length_orient, List.length_append] at hbefore hafter
    rw [hbefore, hafter, List.length_cons]
    omega
  obtain ⟨hheir, honward⟩ := target_of_removed hsituated hseat hitems hshorter hafter hgone hindex
  refine ⟨honward, mem_orient.1 (hrow ▸ List.mem_append_right _ List.mem_cons_self), hgone, hheir, ?_⟩
  rw [honward]
  exact perm_far hsituated hrow hafter hnodup hgone (List.Subset.refl _)

/-- Where nodes came in ahead, the row has not got shorter, and a walk misses all up to what stands at the index of the
node. -/
theorem departs_of_longer (hindex : seat.index = divide v.backwards walked (v.far call))
    (hnodup : (call.row call.after).Nodup) (hgone : call.node ∉ call.row call.after)
    (hafter : orient v.backwards (call.row call.after) = walked ++ ahead) (hfar : v.far call ⊆ ahead)
    (hcame : 0 < call.fresh.length) :
    v.onward call = ahead.drop (call.skips v.backwards) ∧ v.Departs call (ahead.take (call.skips v.backwards)) := by
  have hperm := perm_far hsituated hrow hafter hnodup hgone hfar
  have hlength := hperm.length_eq
  rw [List.length_append] at hlength
  have hskips : 0 < call.skips v.backwards ∧ call.skips v.backwards ≤ ahead.length := by
    unfold Call.skips
    split <;> omega
  obtain ⟨nodes, last, hmissed⟩ : ∃ nodes last, ahead.take (call.skips v.backwards) = nodes ++ [last] := by
    refine (List.eq_nil_or_concat' _).resolve_left fun hnone => ?_
    have hzero := congrArg List.length hnone
    rw [List.length_take_of_le hskips.2] at hzero
    exact absurd hzero (Nat.ne_of_gt hskips.1)
  have hnodes := congrArg List.length hmissed
  rw [List.length_take_of_le hskips.2, List.length_append, List.length_singleton] at hnodes
  have hwalked : orient v.backwards (call.row call.after) =
      (walked ++ nodes) ++ last :: ahead.drop (call.skips v.backwards) := by
    rw [List.append_assoc, List.append_cons nodes, ← hmissed, List.take_append_drop, hafter]
  have hplace : seat.index = divide v.backwards (walked ++ nodes) (ahead.drop (call.skips v.backwards)) := by
    unfold Call.skips at hnodes ⊢
    rw [hindex, divide, divide, List.length_append, List.length_drop]
    split at hnodes <;> split <;> first | contradiction | omega
  have hlonger : (call.row call.before).length ≤ (call.row call.after).length := by
    have hbefore := congrArg List.length hrow
    have hafter := congrArg List.length hafter
    rw [length_orient, List.length_append] at hbefore hafter
    rw [hbefore, hafter, List.length_cons]
    omega
  obtain ⟨hheir, honward⟩ := target_of_taken hsituated hseat hitems hwalked hgone hlonger hplace
  refine ⟨honward, mem_orient.1 (hrow ▸ List.mem_append_right _ List.mem_cons_self), hgone, ?_, ?_⟩
  · rw [hheir, hmissed, List.getLast?_concat]
  · rw [honward, List.take_append_drop]
    exact hperm

end Gone

/-- At the start of a walk there is nothing to edit. -/
theorem stays_of_start (hseat : call.seat = none) : v.Stays call := by
  have hfar : v.far call = [] := by rw [far, rest, hseat]; rfl
  have honward : v.onward call = [] := by rw [onward, rest, hseat]; rfl
  refine ⟨by rw [heir, target, hseat]; rfl, ?_, ?_, ?_⟩
  · rw [honward]
    exact List.nodup_singleton _
  · rw [honward]
    exact List.nil_subset _
  · rw [hfar]
    exact fun _ h => absurd h List.not_mem_nil

namespace Stays

variable (h : v.Stays call)

include h

theorem sound (hedits : call.Edits v.test) (hnodup : (call.row call.after).Nodup) : v.Sound call := by
  refine ⟨hedits, hnodup, ?_, ?_, (List.nodup_cons.1 h.distinct).1⟩
  · rw [h.heir]
    exact h.distinct
  · rw [h.heir, List.cons_append]
    exact List.cons_subset_cons _ h.subset

theorem takesOut (hsituated : call.Situated) (hloses : v.Loses call w x) : call.TakesOut w := by
  obtain ⟨hw, honward, hheir⟩ := hloses
  rcases List.mem_cons.1 hw with rfl | hw
  · exact absurd rfl (hheir h.heir).2
  · exact ⟨far_subset hsituated hw, fun hmem => honward (h.kept w hw hmem)⟩

end Stays

namespace Departs

variable (h : v.Departs call missed)

include h

theorem sound (hsituated : call.Situated) (hedits : call.Edits v.test) (hnodup : (call.row call.after).Nodup) :
    v.Sound call := by
  obtain ⟨hnode, hahead⟩ := List.nodup_cons.1 (nodup_ahead (v := v) hsituated)
  have hheir : (v.heir call).toList.Sublist missed := by
    rw [h.heir]
    cases missed using List.reverseRecOn with
    | nil => exact List.Sublist.refl _
    | append_singleton missed n _ =>
      rw [List.getLast?_concat]
      exact List.sublist_append_right missed [n]
  have hsub : ((v.heir call).toList ++ v.onward call).Sublist (missed ++ v.onward call) := hheir.append_right _
  refine ⟨hedits, hnodup, (h.perm.nodup_iff.2 hahead).sublist hsub, fun n hn => ?_, fun hmem => ?_⟩
  · exact List.mem_cons_of_mem _ (h.perm.subset (hsub.subset hn))
  · exact hnode (h.perm.subset (List.mem_append_right _ hmem))

theorem takesOut (hloses : v.Loses call w x) :
    call.TakesOut w ∨ w ∈ v.far call ∧ w ∈ missed ∧ (missed.getLast? = some w → x = w) := by
  obtain ⟨hw, honward, hheir⟩ := hloses
  rcases List.mem_cons.1 hw with rfl | hw
  · exact .inl ⟨h.stood, h.gone⟩
  · refine .inr ⟨hw, ?_, fun hlast => (hheir (h.heir.trans hlast)).1⟩
    exact (List.mem_append.1 (h.perm.symm.subset (List.mem_append_left _ hw))).resolve_right honward

private theorem notMem_onward (hsituated : call.Situated) (hw : w ∈ missed) :
    w ∈ v.far call ++ call.fresh ∧ w ∉ v.onward call ∧ w ≠ call.node := by
  obtain ⟨hnode, hahead⟩ := List.nodup_cons.1 (nodup_ahead (v := v) hsituated)
  have hmem := h.perm.subset (List.mem_append_left _ hw)
  exact ⟨hmem, (List.nodup_append'.1 (h.perm.nodup_iff.2 hahead)).2.2 hw, fun hsame => hnode (hsame ▸ hmem)⟩

section Walks

variable {g : Graph} {row : List NodeId} {calls : List Call} (hwalks : v.Walks g row calls)
  (hnodup : (stock g row calls).Nodup) (hcall : call ∈ calls)

include hwalks hnodup hcall

/-- What a walk misses is never called on. -/
theorem never_called (hw : w ∈ missed) : w ∉ calls.map Call.node := by
  have hfits := hwalks.fits call hcall
  obtain ⟨hmem, honward, hne⟩ := h.notMem_onward hfits.situated hw
  have hmem' : w ∈ call.node :: v.far call ++ call.fresh := List.mem_cons_of_mem _ hmem
  refine hwalks.never_called hnodup hcall ?_ ?_ hne
  · rw [← hfits.due_after]
    exact Graph.subset_due hmem'
  · by_cases hheir : v.heir call = some w
    · exact hfits.heir_notMem_left hheir
    · refine hfits.notMem_left hmem' (fun hout => ?_) Graph.mem_preorder_self
      exact (List.mem_append.1 hout).elim (fun hout => hheir (Option.mem_toList.1 hout)) honward

/-- Nor is what is below it, but for the last one. -/
theorem never_called_below (hw : w ∈ missed) (hlast : missed.getLast? ≠ some w) (hx : x ∈ call.after.preorder w) :
    x ∉ calls.map Call.node := by
  have hfits := hwalks.fits call hcall
  obtain ⟨hmem, honward, hne⟩ := h.notMem_onward hfits.situated hw
  refine hwalks.never_called_below hnodup hcall (List.mem_cons_of_mem _ hmem) (fun hout => ?_) hx fun hsame => hne ?_
  · refine (List.mem_append.1 hout).elim (fun hout => hlast ?_) honward
    exact h.heir ▸ Option.mem_toList.1 hout
  · exact eq_of_mem_due (hfits.due_after ▸ hfits.reach_nodup) (List.mem_cons_of_mem _ hmem) List.mem_cons_self hx
      (hsame ▸ Graph.mem_preorder_self)

/-- What is below the node of a call that takes it out is never called on. -/
theorem never_called_own (hx : x ∈ call.before.preorder call.node) (hne : x ≠ call.node) : x ∉ calls.map Call.node := by
  have hfits := hwalks.fits call hcall
  obtain ⟨hnode, -⟩ := List.nodup_cons.1 (nodup_ahead (v := v) hfits.situated)
  rw [← hfits.agree.preorder _ List.mem_cons_self] at hx
  refine hwalks.never_called_below hnodup hcall List.mem_cons_self (fun hout => ?_) hx hne
  refine (List.mem_append.1 hout).elim (fun hout => hnode ?_) hfits.sound.leaves
  exact h.perm.subset (List.mem_append_left _ (List.mem_of_getLast? (h.heir ▸ Option.mem_toList.1 hout)))

omit hcall in
/-- What is below the last of the nodes that it misses is met by a walk. -/
theorem meetsAll_inside {lost : Call → NodeId → NodeId → Prop}
    (hlost : ∀ call ∈ calls, ∀ w x, v.Loses call w x → lost call w x) {earlier later : List Call}
    (hcalls : calls = earlier ++ call :: later) (hlast : missed.getLast? = some w) :
    v.MeetsAll lost later call.after (call.after.childIds w) := by
  have hinside : v.inside call = orient v.backwards (call.after.childIds w) := by
    rw [inside, h.heir, hlast]
    rfl
  refine hwalks.meetsAll_after hnodup hlost hcalls fun kid hkid => List.mem_append_left _ ?_
  exact hinside ▸ mem_orient.2 hkid

end Walks

end Departs

end Ways

end Visitor

end MarkdownTree
