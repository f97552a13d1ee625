import MarkdownTree.Proofs.Onward

/-!
# Walks that come to an end

What calls a walk along a row of siblings makes, told without indices (`Visitor.Walks`): at each node it is either over
it or calls back on it, and goes on along what the call leaves of the row.  Where all calls are sound, no node comes in
twice, and only so many come in, a walk comes to its end and makes such calls (`Visitor.exists_walks`): with every call it
has less before it, what may still come in added.
-/

namespace MarkdownTree

namespace Visitor

variable {σ : Type}

/-- The calls that a walk along a row makes, from a graph on. -/
inductive Walks (v : Visitor σ) : Graph → List NodeId → List Call → Prop where
  | nil (g : Graph) : Walks v g [] []
  | past {g g₁ : Graph} {n : NodeId} {row : List NodeId} {inner rest : List Call}
      (hpass : ¬g.passes v.test n = true) (hends : g.Ends n)
      (hinner : Walks v g (orient v.backwards (g.childIds n)) inner)
      (hagree : Graph.Agree v.test g g₁ row) (hrest : Walks v g₁ row rest) : Walks v g (n :: row) (inner ++ rest)
  | call {call : Call} {g₁ : Graph} {inner rest : List Call}
      (hpass : call.before.passes v.test call.node = true) (hfits : v.Fits call)
      (hinner : Walks v call.after (v.inside call) inner)
      (hagree : Graph.Agree v.test call.after g₁ (v.onward call)) (hrest : Walks v g₁ (v.onward call) rest) :
      Walks v call.before (call.node :: v.far call) (call :: inner ++ rest)

/-- The nodes that were there at first or have come in since. -/
def known (base : List NodeId) (log : List Call) : List NodeId :=
  base ++ log.flatMap Call.entered

/-- What is asked of the calls on record: those in a row are sound, no node comes in twice, and only so many come in. -/
structure Lawful (v : Visitor σ) (base : List NodeId) (bound : Nat) (log : List Call) : Prop where
  sound : ∀ call ∈ log, call.Situated → v.Sound call
  nodup : (known base log).Nodup
  bound : (log.flatMap Call.entered).length ≤ bound

/-- A walk can go along a row: all that stands there is the root of a tree, and no node stands in two places. -/
structure Ready (base : List NodeId) (log : List Call) (parent : Option NodeId) (row : List NodeId) (g : Graph) :
    Prop where
  ends : ∀ sib ∈ row, g.Ends sib
  nodup : (parent.toList ++ g.due row).Nodup
  known : parent.toList ++ g.due row ⊆ known base log
  items : ∀ p, parent = some p →
    (∃ c, g.cell? p = some c) ∧ g.items p = (g.childIds p).map .node ∧ (g.childIds p).Nodup

/-- With enough fuel the work comes to a result. -/
def Settles {τ α : Type} (work : Nat → EStateM Fault τ α) (t : τ) (a : α) (t' : τ) : Prop :=
  ∃ enough, ∀ fuel, enough ≤ fuel → work fuel t = .ok a t'

/-- The nodes that are known and not ahead are spared. -/
def Apart (v : Visitor σ) (base : List NodeId) (log : List Call) (parent : Option NodeId) (row : List NodeId)
    (g g' : Graph) : Prop :=
  Graph.Spares v.test g g' fun m => m ∈ known base log ∧ m ∉ parent.toList ++ g.due row

/-- A walk that was at a row has gone on to another one: it is ready for that, has less before it, nothing that it did not
have before it and was known, and has spared what it has nothing to do with. -/
structure Advances (v : Visitor σ) (base : List NodeId) (parent : Option NodeId) (log : List Call) (row : List NodeId)
    (g : Graph) (log' : List Call) (row' : List NodeId) (g' : Graph) : Prop where
  ready : Ready base log' parent row' g'
  less : (g'.due row').length + 1 + (log.flatMap Call.entered).length ≤
    (g.due row).length + (log'.flatMap Call.entered).length
  within : ∀ m ∈ g'.due row', m ∈ known base log → m ∈ g.due row
  apart : Apart v base log parent row g g'

/-- A walk is at a node of a row that it can go along: what is ahead, with what may still come in, is no more than so
much, and the calls that it makes are lawful. -/
structure IsAt (v : Visitor σ) (base : List NodeId) (bound n : Nat) (seat : Option Seat) (id : NodeId)
    (far : List NodeId) (s : σ) (log : List Call) : Prop where
  rest : v.rest (v.graph s) seat .next = far
  ready : Ready base log (seat.map Seat.parent) (id :: far) (v.graph s)
  stands : ∀ q, seat = some q → ((v.graph s).childIds q.parent)[q.index]? = some id
  lawful : ∀ fuel, Lawful v base bound (finalState (v.recording.walk fuel (.node id) seat (s, log))).2
  size : ((v.graph s).due (id :: far)).length + bound ≤ n + (log.flatMap Call.entered).length

/-- The walk of a node comes to its end and leaves the row to be gone along further; the calls of the rest are to follow
its own. -/
def GoesPast (v : Visitor σ) (base : List NodeId) (seat : Option Seat) (id : NodeId) (far : List NodeId) (s : σ)
    (log : List Call) : Prop :=
  ∃ calls s' outcome, outcome ≠ .stop ∧
    Settles (fun fuel => v.recording.walk fuel (.node id) seat) (s, log) outcome (s', log ++ calls) ∧
    (∀ rest, v.Walks (v.graph s') (v.rest (v.graph s') seat outcome) rest →
      v.Walks (v.graph s) (id :: far) (calls ++ rest)) ∧
    Advances v base (seat.map Seat.parent) log (id :: far) (v.graph s) (log ++ calls)
      (v.rest (v.graph s') seat outcome) (v.graph s')

/-- Walks along rows come to their end, as long as there is no more ahead than so much, what may still come in added. -/
def Comes (v : Visitor σ) (base : List NodeId) (bound n : Nat) : Prop :=
  ∀ {p : NodeId} {index : Int} {s : σ} {log : List Call} {row : List NodeId},
    ahead v.backwards ((v.graph s).childIds p) index = row → Ready base log (some p) row (v.graph s) →
    (∀ fuel, Lawful v base bound (finalState (v.recording.walkFrom fuel p index (s, log))).2) →
    ((v.graph s).due row).length + bound ≤ n + (log.flatMap Call.entered).length →
    ∃ calls s', Settles (fun fuel => v.recording.walkFrom fuel p index) (s, log) .next (s', log ++ calls) ∧
      v.Walks (v.graph s) row calls ∧ Apart v base log (some p) row (v.graph s) (v.graph s')

variable {v : Visitor σ} {base : List NodeId} {bound : Nat} {log log' : List Call} {g g' : Graph}

private theorem known_append : known base (log ++ log') = known base log ++ log'.flatMap Call.entered := by
  rw [known, known, List.flatMap_append, List.append_assoc]

private theorem Lawful.mono (h : Lawful v base bound log') (hgrows : log <+: log') : Lawful v base bound log := by
  obtain ⟨rest, rfl⟩ := hgrows
  refine ⟨fun call hcall => h.sound call (List.mem_append_left _ hcall), ?_, ?_⟩
  · exact (known_append ▸ h.nodup).of_append_left
  · refine Nat.le_trans ?_ h.bound
    rw [List.flatMap_append, List.length_append]
    exact Nat.le_add_right _ _

/-! ### The call that is made at a node -/

/-- The call that is recorded at a node. -/
def callAt (v : Visitor σ) (id : NodeId) (seat : Option Seat) (s : σ) : Call :=
  match v.callback id seat s with
  | .ok reply s' => ⟨id, seat, v.graph s, v.graph s', .ok reply⟩
  | .error fault s' => ⟨id, seat, v.graph s, v.graph s', .error fault⟩

variable {id : NodeId} {seat : Option Seat} {s : σ} {fuel : Nat}

private theorem callAt_node : (v.callAt id seat s).node = id := by
  unfold callAt
  split <;> rfl

private theorem callAt_seat : (v.callAt id seat s).seat = seat := by
  unfold callAt
  split <;> rfl

private theorem callAt_before : (v.callAt id seat s).before = v.graph s := by
  unfold callAt
  split <;> rfl

/-- After a call that lets the walk go on, the walk goes where the call leads. -/
private theorem exists_follow (hpass : (v.graph s).passes v.test id = true) {call : Call}
    (hcall : v.callAt id seat s = call)
    (hproceeds : call.answer = .ok .proceed) : ∃ s₁, call.after = v.graph s₁ ∧ ∀ fuel log,
      v.recording.walk (fuel + 1) (.node id) seat (s, log) =
        v.recording.follow fuel (v.target call) (s₁, log ++ [call]) := by
  subst hcall
  unfold callAt at hproceeds
  split at hproceeds
  · rename_i reply s₁ hcallback
    cases hproceeds
    have hcall : v.callAt id seat s = ⟨id, seat, v.graph s, v.graph s₁, .ok .proceed⟩ := by rw [callAt, hcallback]
    rw [hcall]
    exact ⟨s₁, rfl, fun fuel log => v.walk_matched (t := (s, log)) hpass hcallback⟩
  · cases hproceeds

/-- The call at a matching node goes on record, whatever comes of it. -/
private theorem callAt_grows (hpass : (v.graph s).passes v.test id = true) :
    log ++ [v.callAt id seat s] <+: (finalState (v.recording.walk (fuel + 1) (.node id) seat (s, log))).2 := by
  have hrecord : (finalState (v.recording.callback id seat (s, log))).2 = log ++ [v.callAt id seat s] := by
    unfold callAt recording
    dsimp only
    cases v.callback id seat s <;> rfl
  have hwalk : v.recording.walk (fuel + 1) (.node id) seat (s, log) =
      (v.recording.callback id seat >>= v.recording.comply fuel id seat (v.graph s)) (s, log) := by
    rw [walk_node]
    exact if_pos hpass
  rw [hwalk, ← hrecord]
  exact Adds.prefix_bind (v.adds_comply (v.adds_walk fuel).2.1 id seat _) _

/-! ### Into a node -/

section Steps

variable {n : Nat} {parent : Option NodeId} {row row' : List NodeId}

private theorem known_subset (h : log <+: log') : known base log ⊆ known base log' := by
  obtain ⟨rest, rfl⟩ := h
  rw [known_append]
  exact List.subset_append_left _ _

/-- What stays as it is known to be, with some of what was ahead, can be walked along. -/
private theorem Ready.of_apart (h : Ready base log parent row g) (hsub : (g.due row').Sublist (g.due row))
    (hrow : row' ⊆ row)
    (hspares : Graph.Spares v.test g g' (· ∈ parent.toList ++ g.due row')) (hlog : log <+: log') :
    Ready base log' parent row' g' := by
  have hends : ∀ sib ∈ row', g.Ends sib := fun sib hsib => h.ends sib (hrow hsib)
  have hagree : Graph.Agree v.test g g' row' :=
    Graph.agree_of_spares hends hspares fun m hm => List.mem_append_right _ hm
  refine ⟨fun sib hsib => ?_, ?_, ?_, fun p hp => ?_⟩
  · exact ((hends sib hsib).spares hspares fun m hm =>
      List.mem_append_right _ (Graph.mem_due.2 ⟨sib, hsib, hm⟩)).1
  · rw [hagree.due]
    exact h.nodup.sublist (hsub.append_left _)
  · rw [hagree.due]
    exact List.Subset.trans (List.Subset.trans (hsub.append_left _).subset h.known) (known_subset hlog)
  · obtain ⟨⟨c, hc⟩, hitems, hnodup⟩ := h.items p hp
    have hp' : p ∈ parent.toList ++ g.due row' := List.mem_append_left _ (hp ▸ List.mem_singleton_self p)
    obtain ⟨c', hc', -⟩ := hspares.same p hp' c hc
    exact ⟨⟨c', hc'⟩, by rw [hspares.items hp' hc, hspares.childIds hp' hc, hitems],
      by rw [hspares.childIds hp' hc]; exact hnodup⟩

/-- A walk can go into a node whose tree ends, if no node stands twice there and all are known. -/
private theorem ready_inside (hends : g.Ends id) (hnodup : (id :: g.due (orient v.backwards (g.childIds id))).Nodup)
    (hknown : id :: g.due (orient v.backwards (g.childIds id)) ⊆ known base log) :
    Ready base log (some id) (orient v.backwards (g.childIds id)) g := by
  have hkids := orient_perm v.backwards (g.childIds id)
  refine ⟨fun sib hsib => hends.child (hkids.subset hsib), hnodup, hknown, fun p hp => ?_⟩
  cases hp
  exact ⟨hends.cell?, hends.items, hkids.nodup_iff.1 ((List.nodup_cons.1 hnodup).2.sublist (Graph.sublist_due _))⟩

/-- A walk into a node comes to its end. -/
theorem Comes.descend (hcomes : Comes v base bound n) {y : NodeId} (hends : (v.graph s).Ends y)
    (hready : Ready base log (some y) (orient v.backwards ((v.graph s).childIds y)) (v.graph s)) {resume : Outcome}
    (hlawful : ∀ fuel, Lawful v base bound (finalState (v.recording.descend fuel (.node y) resume (s, log))).2)
    (hsize : ((v.graph s).due (orient v.backwards ((v.graph s).childIds y))).length + bound ≤
      n + (log.flatMap Call.entered).length) :
    ∃ calls s', Settles (fun fuel => v.recording.descend fuel (.node y) resume) (s, log) resume (s', log ++ calls) ∧
      v.Walks (v.graph s) (orient v.backwards ((v.graph s).childIds y)) calls ∧
      Apart v base log (some y) (orient v.backwards ((v.graph s).childIds y)) (v.graph s) (v.graph s') := by
  have hrow : ahead v.backwards ((v.graph s).childIds y) (v.firstIndex (v.graph s) y) =
      orient v.backwards ((v.graph s).childIds y) :=
    v.ahead_firstIndex (by rw [hends.items, List.length_map])
  have hdescend (fuel : Nat) : v.recording.descend (fuel + 1) (.node y) resume (s, log) =
      (v.recording.walkFrom fuel y (v.firstIndex (v.graph s) y) >>= settle resume) (s, log) :=
    v.descend_row (t := (s, log)) hends.stray?_eq_none
  have hinner : ∀ fuel,
      Lawful v base bound (finalState (v.recording.walkFrom fuel y (v.firstIndex (v.graph s) y) (s, log))).2 := by
    intro fuel
    refine (hlawful (fuel + 1)).mono ?_
    rw [hdescend]
    exact Adds.prefix_bind (adds_settle resume) _
  obtain ⟨calls, s', ⟨enough, hwalk⟩, hwalks, hapart⟩ := hcomes hrow hready hinner hsize
  refine ⟨calls, s', ⟨enough + 1, fun fuel hfuel => ?_⟩, hwalks, hapart⟩
  obtain ⟨fuel, rfl⟩ := Nat.exists_eq_add_of_le' (Nat.le_of_add_left_le hfuel)
  exact (hdescend fuel).trans (bind_eq_of_ok (hwalk fuel (by omega)))

/-- What is left of a row does not change where its parent is spared. -/
private theorem rest_of_spares (hready : Ready base log (seat.map Seat.parent) row g)
    (hspares : Graph.Spares v.test g g' (· ∈ (seat.map Seat.parent).toList ++ g.due row')) (outcome : Outcome) :
    v.rest g' seat outcome = v.rest g seat outcome := by
  cases seat with
  | none => rfl
  | some q =>
    obtain ⟨⟨c, hc⟩, -⟩ := hready.items q.parent rfl
    show ahead v.backwards (g'.childIds q.parent) _ = ahead v.backwards (g.childIds q.parent) _
    rw [hspares.childIds (List.mem_append_left _ (List.mem_singleton_self q.parent)) hc]

theorem length_entered_le (log log' : List Call) :
    (log.flatMap Call.entered).length ≤ ((log ++ log').flatMap Call.entered).length := by
  rw [List.flatMap_append, List.length_append]
  exact Nat.le_add_right _ _

/-- Over a node that does not match a walk goes into its children, and then on. -/
private theorem Comes.past (hcomes : Comes v base bound n) {far : List NodeId}
    (hat : v.IsAt base bound (n + 1) seat id far s log)
    (hpass : ¬(v.graph s).passes v.test id = true) : v.GoesPast base seat id far s log := by
  have hready := hat.ready
  have hends : (v.graph s).Ends id := hready.ends id List.mem_cons_self
  let kids := orient v.backwards ((v.graph s).childIds id)
  have hkids : kids.Perm ((v.graph s).childIds id) := orient_perm v.backwards _
  have hdue : ((v.graph s).due (id :: far)).Perm ((id :: (v.graph s).due kids) ++ (v.graph s).due far) := by
    rw [Graph.due_cons, hends.preorder_eq]
    exact ((Graph.due_perm hkids).symm.cons id).append_right _
  have hall : ((seat.map Seat.parent).toList ++ (v.graph s).due (id :: far)).Perm
      ((id :: (v.graph s).due kids) ++ ((seat.map Seat.parent).toList ++ (v.graph s).due far)) :=
    (hdue.append_left _).trans (List.perm_append_comm_assoc _ _ _)
  obtain ⟨hinside, -, hapart⟩ := List.nodup_append'.1 (hall.nodup_iff.1 hready.nodup)
  have hwalk (fuel : Nat) : v.recording.walk (fuel + 1) (.node id) seat (s, log) =
      v.recording.descend fuel (.node id) .next (s, log) := v.walk_unmatched (t := (s, log)) hpass
  have hsize := hat.size
  have hlength := hdue.length_eq
  rw [List.length_append, List.length_cons] at hlength
  obtain ⟨calls, s', ⟨enough, hdescend⟩, hwalks, hcalls⟩ := hcomes.descend hends
    (ready_inside hends hinside fun m hm => hready.known (hall.symm.subset (List.mem_append_left _ hm)))
    (fun fuel => hwalk fuel ▸ hat.lawful (fuel + 1)) (show ((v.graph s).due kids).length + bound ≤ _ by omega)
  have hspares : Graph.Spares v.test (v.graph s) (v.graph s')
      (· ∈ (seat.map Seat.parent).toList ++ (v.graph s).due far) :=
    hcalls.mono fun m hm =>
      ⟨hready.known (hall.symm.subset (List.mem_append_right _ hm)), fun hm' => hapart hm' hm⟩
  have hagree : Graph.Agree v.test (v.graph s) (v.graph s') far :=
    Graph.agree_of_spares (fun sib hsib => hready.ends sib (List.mem_cons_of_mem _ hsib)) hspares
      fun m hm => List.mem_append_right _ hm
  have hrest : v.rest (v.graph s') seat .next = far :=
    (rest_of_spares hready hspares _).trans hat.rest
  refine ⟨calls, s', .next, Outcome.noConfusion, ⟨enough + 1, fun fuel hfuel => ?_⟩, fun rest hwalks' => ?_, ?_, ?_,
    fun m hm _ => ?_, hcalls.mono fun m hm => ⟨hm.1, fun hm' => hm.2 (hall.symm.subset (List.mem_append_left _ hm'))⟩⟩
  · obtain ⟨fuel, rfl⟩ := Nat.exists_eq_add_of_le' (Nat.le_of_add_left_le hfuel)
    exact (hwalk fuel).trans (hdescend fuel (by omega))
  · exact .past hpass hends hwalks hagree (hrest ▸ hwalks')
  · rw [hrest]
    exact hready.of_apart (Graph.due_sublist (List.sublist_cons_self _ _)) (List.subset_cons_self _ _) hspares
      (List.prefix_append _ _)
  · rw [hrest, hagree.due]
    have hentered := length_entered_le log calls
    omega
  · rw [hrest, hagree.due] at hm
    exact hdue.symm.subset (List.mem_append_right _ hm)

/-- A call at the head of a row that can be walked along fits the tree. -/
private theorem fits_of_lawful {call : Call}
    (hready : Ready base log (call.seat.map Seat.parent) (call.node :: v.far call) call.before)
    (hstands : ∀ q, call.seat = some q → (call.before.childIds q.parent)[q.index]? = some call.node)
    (hlawful : Lawful v base bound (log ++ [call])) : v.Fits call := by
  have hknown : (known base log ++ call.entered).Nodup := by
    have hnodup := hlawful.nodup
    rwa [known_append, List.flatMap_singleton] at hnodup
  obtain ⟨-, hentered, hapart⟩ := List.nodup_append'.1 hknown
  have hsituated : call.Situated := by
    refine ⟨hstands, fun q hq => ?_, ?_, hentered.sublist (Graph.sublist_due _)⟩
    · exact (hready.items q.parent (by rw [hq]; rfl)).2.1
    · unfold Call.row
      cases hseat : call.seat with
      | none => exact List.nodup_nil
      | some q => exact (hready.items q.parent (by rw [hseat]; rfl)).2.2
  refine ⟨hsituated, hlawful.sound call (List.mem_append_right _ (List.mem_singleton_self call)) hsituated,
    hready.ends, ?_⟩
  rw [← List.append_assoc]
  exact List.nodup_append'.2 ⟨hready.nodup, hentered, fun m hm => hapart (hready.known hm)⟩

private theorem target_ne_stop {call : Call} : (v.target call).2 ≠ .stop := by
  unfold target lead
  cases standingOf call.after (siblingCount call.before call.seat) call.node call.seat <;> exact Outcome.noConfusion

/-- Where a call leads, a walk comes to its end. -/
private theorem Comes.follow (hcomes : Comes v base bound n) {call : Call} (hfits : v.Fits call)
    (hafter : call.after = v.graph s)
    (hknown : v.reach call ⊆ known base log)
    (hlawful : ∀ fuel, Lawful v base bound (finalState (v.recording.follow fuel (v.target call) (s, log))).2)
    (hsize : (v.left call).length + bound ≤ n + (log.flatMap Call.entered).length) :
    ∃ inner s', Settles (fun fuel => v.recording.follow fuel (v.target call)) (s, log) (v.target call).2
        (s', log ++ inner) ∧
      v.Walks call.after (v.inside call) inner ∧
      Apart v base log (v.heir call) (v.inside call) call.after (v.graph s') := by
  have hfst := hfits.sound.target_fst
  cases hheir : v.heir call with
  | none =>
    rw [hheir] at hfst
    have hfollow (fuel : Nat) : v.recording.follow fuel (v.target call) = return (v.target call).2 := by
      revert hfst
      rcases v.target call with ⟨item, outcome⟩
      rintro (rfl : item = _)
      rfl
    have hinside : v.inside call = [] := by rw [inside, hheir]; rfl
    refine ⟨[], s, ⟨0, fun fuel _ => ?_⟩, hinside ▸ .nil _, ?_⟩
    · rw [List.append_nil]
      exact congrFun (hfollow fuel) (s, log)
    · rw [← hafter]
      exact Graph.Spares.refl v.test call.after _
  | some y =>
    rw [hheir] at hfst
    have hfollow (fuel : Nat) : v.recording.follow fuel (v.target call) =
        v.recording.descend fuel (.node y) (v.target call).2 := by
      revert hfst
      rcases v.target call with ⟨item, outcome⟩
      rintro (rfl : item = _)
      rfl
    simp only [hfollow] at hlawful ⊢
    have hinside : v.inside call = orient v.backwards (call.after.childIds y) := by rw [inside, hheir]; rfl
    have hends : call.after.Ends y :=
      hfits.heirs_ends (List.mem_append_left _ (by rw [hheir]; exact List.mem_singleton_self y))
    have hsub := hfits.inside_subset
    have hnodup : ((v.heir call).toList ++ call.after.due (v.inside call)).Nodup := by
      have hall := nodup_of_subperm hfits.heirs_subperm hfits.reach_nodup
      rw [left, ← List.append_assoc] at hall
      exact (List.nodup_append'.1 hall).1
    have hsize' : (call.after.due (v.inside call)).length + bound ≤ n + (log.flatMap Call.entered).length := by
      rw [left, List.length_append] at hsize
      omega
    rw [hheir, hinside, hafter] at hsub hnodup
    rw [hinside, hafter] at hsize' ⊢
    rw [hafter] at hends
    exact hcomes.descend hends (ready_inside hends hnodup (List.Subset.trans hsub hknown)) hlawful hsize'

/-- After a call a walk is ready to go on along the siblings that the call leaves. -/
theorem Ready.onward {call : Call}
    (hready : Ready base log (call.seat.map Seat.parent) (call.node :: v.far call) call.before)
    (hfits : v.Fits call) : Ready base (log ++ [call]) (call.seat.map Seat.parent) (v.onward call) call.after := by
  have hsub : (call.after.due (v.onward call)).Subperm (v.reach call) :=
    (List.sublist_append_right _ _).subperm.trans ((List.sublist_append_right _ _).subperm.trans hfits.heirs_subperm)
  obtain ⟨hparent, -, hapart⟩ := List.nodup_append'.1 hfits.nodup
  refine ⟨fun sib hsib => hfits.heirs_ends (List.mem_append_right _ hsib), ?_, ?_, fun p hp => ?_⟩
  · exact List.nodup_append'.2
      ⟨hparent, nodup_of_subperm hsub hfits.reach_nodup, fun m hm hm' => hapart hm (hsub.subset hm')⟩
  · rw [known_append, List.flatMap_singleton]
    refine List.append_subset.2 ⟨fun m hm => ?_, fun m hm => ?_⟩
    · exact List.mem_append_left _ (hready.known (List.mem_append_left _ hm))
    · rcases List.mem_append.1 (hsub.subset hm) with hm | hm
      · exact List.mem_append_left _ (hready.known (List.mem_append_right _ hm))
      · exact List.mem_append_right _ hm
  · cases hseat : call.seat with
    | none =>
      rw [hseat] at hp
      cases hp
    | some q =>
      rw [hseat] at hp
      cases hp
      have hnodup := hfits.sound.nodup
      rw [Call.row, hseat] at hnodup
      exact ⟨(hfits.sound.items q hseat).1, (hfits.sound.items q hseat).2, hnodup⟩

/-- What is ahead at a call, and what comes in with it, is known once the call is on record. -/
private theorem reach_subset_known {call : Call}
    (hready : Ready base log (call.seat.map Seat.parent) (call.node :: v.far call) call.before) :
    v.reach call ⊆ known base (log ++ [call]) := by
  rw [known_append, List.flatMap_singleton]
  exact List.append_subset.2 ⟨fun m hm => List.mem_append_left _ (hready.known (List.mem_append_right _ hm)),
    List.subset_append_right _ _⟩

/-- The walk of the heir of a call has nothing to do with the row that a walk goes on along, nor with its parent. -/
private theorem spares_of_apart {call : Call}
    (hready : Ready base log (call.seat.map Seat.parent) (v.onward call) call.after)
    (hfits : v.Fits call) (hinner : Apart v base log (v.heir call) (v.inside call) call.after g) :
    Graph.Spares v.test call.after g (· ∈ (call.seat.map Seat.parent).toList ++ call.after.due (v.onward call)) := by
  have hheirs := nodup_of_subperm hfits.heirs_subperm hfits.reach_nodup
  rw [left, ← List.append_assoc] at hheirs
  refine hinner.mono fun m hm => ⟨hready.known hm, fun hm' => ?_⟩
  rcases List.mem_append.1 hm with hm | hm
  · exact (List.nodup_append'.1 hfits.nodup).2.2 hm (hfits.inside_subset hm')
  · exact (List.nodup_append'.1 hheirs).2.2 hm' hm

/-- A call advances a walk along a row to what it goes on along. -/
private theorem advances_of_call {call : Call}
    (hready : Ready base log (call.seat.map Seat.parent) (call.node :: v.far call) call.before)
    (hfits : v.Fits call) (hlog : Lawful v base bound (log ++ [call]))
    (hinner : Apart v base (log ++ [call]) (v.heir call) (v.inside call) call.after g) (inner : List Call) :
    Advances v base (call.seat.map Seat.parent) log (call.node :: v.far call) call.before (log ++ call :: inner)
      (v.onward call) g := by
  have hparent := hready.onward hfits
  have hspares := spares_of_apart hparent hfits hinner
  have hagree : Graph.Agree v.test call.after g (v.onward call) :=
    Graph.agree_of_spares hparent.ends hspares fun m hm => List.mem_append_right _ hm
  have hnew {m : NodeId} (hm : m ∈ known base log) : m ∉ call.entered := by
    have hnodup := hlog.nodup
    rw [known_append, List.flatMap_singleton] at hnodup
    exact fun hm' => (List.nodup_append'.1 hnodup).2.2 hm hm'
  rw [List.append_cons]
  have hfar {m : NodeId} (hm : m ∉ (call.seat.map Seat.parent).toList ++ call.before.due (call.node :: v.far call)) :
      call.seat.map Seat.parent ≠ some m :=
    fun hp => hm (List.mem_append_left _ (hp ▸ List.mem_singleton_self m))
  refine ⟨?_, ?_, fun m hm hold => ?_, (hfits.sound.spares.mono fun m hm => hfar hm.2).trans hinner
    fun m hm => ⟨known_subset (List.prefix_append _ _) hm.1, fun hm' => ?_⟩⟩
  · exact hparent.of_apart (List.Sublist.refl _) (List.Subset.refl _) hspares (List.prefix_append _ _)
  · have hless := hfits.due_subperm.length_le
    have hmore := length_entered_le (log ++ [call]) inner
    rw [left, reach, List.length_cons, List.length_append, List.length_append] at hless
    rw [List.flatMap_append, List.length_append, List.flatMap_singleton] at hmore
    rw [hagree.due]
    omega
  · rw [hagree.due] at hm
    exact (List.mem_append.1 (hfits.left_subset (List.mem_append_right _ hm))).resolve_right (hnew hold)
  · rcases List.mem_append.1 (hfits.inside_subset hm') with hm' | hm'
    · exact hm.2 (List.mem_append_right _ hm')
    · exact hnew hm.1 hm'

/-- At a node that matches a walk calls back, and goes on where the call leads. -/
private theorem Comes.call (hcomes : Comes v base bound n) {far : List NodeId}
    (hat : v.IsAt base bound (n + 1) seat id far s log)
    (hpass : (v.graph s).passes v.test id = true) : v.GoesPast base seat id far s log := by
  obtain ⟨hrest, hready, hstands, hlawful, hsize⟩ := hat
  obtain ⟨call, hcall⟩ : ∃ call, v.callAt id seat s = call := ⟨_, rfl⟩
  obtain rfl : call.node = id := hcall ▸ callAt_node
  obtain rfl : call.seat = seat := hcall ▸ callAt_seat
  have hbefore : call.before = v.graph s := hcall ▸ callAt_before
  obtain rfl : v.far call = far := by rw [← hrest, ← hbefore]; rfl
  have hgrows : log ++ [v.callAt call.node call.seat s] <+:
      (finalState (v.recording.walk 1 (.node call.node) call.seat (s, log))).2 := callAt_grows hpass
  rw [hcall] at hgrows
  rw [← hbefore] at hready hstands hsize
  have hlog : Lawful v base bound (log ++ [call]) := (hlawful 1).mono hgrows
  have hfits := fits_of_lawful hready hstands hlog
  obtain ⟨s₁, hafter, hwalk⟩ := exists_follow hpass hcall hfits.sound.proceeds
  have hleft : (v.left call).length + bound ≤ n + ((log ++ [call]).flatMap Call.entered).length := by
    have hless := hfits.due_subperm.length_le
    rw [reach, List.length_cons, List.length_append] at hless
    rw [List.flatMap_append, List.length_append, List.flatMap_singleton]
    omega
  obtain ⟨inner, s', ⟨enough, hfollow⟩, hwalks, hinner⟩ := hcomes.follow hfits hafter (reach_subset_known hready)
    (fun fuel => hwalk fuel log ▸ hlawful (fuel + 1)) hleft
  have hadvances := advances_of_call hready hfits hlog hinner inner
  have hparent := hready.onward hfits
  have hspares := spares_of_apart hparent hfits hinner
  have honward : v.rest (v.graph s') call.seat (v.target call).2 = v.onward call :=
    rest_of_spares hparent hspares _
  rw [← List.append_cons] at hfollow
  refine ⟨call :: inner, s', (v.target call).2, target_ne_stop, ⟨enough + 1, fun fuel hfuel => ?_⟩,
    fun rest hrest => ?_, ?_⟩
  · obtain ⟨fuel, rfl⟩ := Nat.exists_eq_add_of_le' (Nat.le_of_add_left_le hfuel)
    exact (hwalk fuel log).trans (hfollow fuel (by omega))
  · have hagree : Graph.Agree v.test call.after (v.graph s') (v.onward call) :=
      Graph.agree_of_spares hparent.ends hspares fun m hm => List.mem_append_right _ hm
    rw [← hbefore]
    exact .call (hbefore ▸ hpass) hfits hwalks hagree (honward ▸ hrest)
  · rw [honward, ← hbefore]
    exact hadvances

/-- A walk comes past a node, whether it calls back on it or not. -/
theorem Comes.node (hcomes : Comes v base bound n) {far : List NodeId}
    (hat : v.IsAt base bound (n + 1) seat id far s log) : v.GoesPast base seat id far s log := by
  by_cases hpass : (v.graph s).passes v.test id = true
  · exact hcomes.call hat hpass
  · exact hcomes.past hat hpass

end Steps

/-- At the end of a row a walk has come to its end. -/
private theorem walkFrom_end {p : NodeId} {index : Int} (hrow : ahead v.backwards ((v.graph s).childIds p) index = [])
    (hready : Ready base log (some p) [] (v.graph s)) :
    ∃ calls s', Settles (fun fuel => v.recording.walkFrom fuel p index) (s, log) .next (s', log ++ calls) ∧
      v.Walks (v.graph s) [] calls ∧ Apart v base log (some p) [] (v.graph s) (v.graph s') := by
  have hend : index < 0 ∨ ((v.graph s).items p)[index.toNat]? = none := by
    rw [(hready.items p rfl).2.1, List.getElem?_map, Option.map_eq_none_iff]
    exact v.ahead_eq_nil_iff.1 hrow
  refine ⟨[], s, ⟨1, fun fuel hfuel => ?_⟩, .nil _, Graph.Spares.refl _ _ _⟩
  obtain ⟨fuel, rfl⟩ := Nat.exists_eq_add_of_le' hfuel
  rw [List.append_nil]
  exact v.walkFrom_nil (t := (s, log)) hend

/-- A walk that comes to its end with less before it does so with more: after its first node less is before it. -/
theorem Comes.step (hcomes : Comes v base bound n) : Comes v base bound (n + 1) := by
  intro p index s log row hrow hready hlawful hsize
  cases row with
  | nil => exact walkFrom_end hrow hready
  | cons id far =>
    obtain ⟨hindex, hget, hfar⟩ := v.ahead_eq_cons_iff.1 hrow
    have hwalk (fuel : Nat) : v.recording.walkFrom (fuel + 1) p index (s, log) =
        (v.recording.walk fuel (.node id) (some ⟨index.toNat, p⟩) >>= v.recording.goOn fuel p index.toNat)
          (s, log) := by
      refine v.walkFrom_cons (t := (s, log)) hindex ?_
      rw [(hready.items p rfl).2.1, List.getElem?_map, hget]
      rfl
    have hhead : ∀ fuel, Lawful v base bound
        (finalState (v.recording.walk fuel (.node id) (some ⟨index.toNat, p⟩) (s, log))).2 := by
      intro fuel
      refine (hlawful (fuel + 1)).mono ?_
      rw [hwalk]
      exact Adds.prefix_bind (v.adds_goOn (v.adds_walk fuel).2.2 p index.toNat) _
    have hat : v.IsAt base bound (n + 1) (some ⟨index.toNat, p⟩) id far s log :=
      ⟨hfar, hready, fun q hq => by cases hq; exact hget, hhead, hsize⟩
    obtain ⟨calls, s', outcome, hstop, ⟨enough, hsettle⟩, hwalks, hadvances⟩ := hcomes.node hat
    have hgoOn (fuel : Nat) : v.recording.goOn fuel p index.toNat outcome =
        v.recording.walkFrom fuel p (v.after index.toNat outcome) := by
      cases outcome with
      | stop => exact absurd rfl hstop
      | _ => rfl
    have hnext {fuel : Nat} (hfuel : enough ≤ fuel) : v.recording.walkFrom (fuel + 1) p index (s, log) =
        v.recording.walkFrom fuel p (v.after index.toNat outcome) (s', log ++ calls) :=
      (hwalk fuel).trans ((bind_eq_of_ok (hsettle fuel hfuel)).trans (congrFun (hgoOn fuel) _))
    have htail : ∀ fuel, Lawful v base bound
        (finalState (v.recording.walkFrom fuel p (v.after index.toNat outcome) (s', log ++ calls))).2 := by
      intro fuel
      refine (hlawful (max fuel enough + 1)).mono ?_
      rw [hnext (Nat.le_max_right fuel enough)]
      exact (cut_walkFrom_of_le (Nat.le_max_left fuel enough) p _ _).grows
    obtain ⟨rest, s'', ⟨enough', hsettle'⟩, hwalks', hapart⟩ := hcomes rfl hadvances.ready htail (by
      have hless := hadvances.less
      show ((v.graph s').due (v.rest (v.graph s') (some ⟨index.toNat, p⟩) outcome)).length + bound ≤ _
      omega)
    refine ⟨calls ++ rest, s'', ⟨max enough enough' + 1, fun fuel hfuel => ?_⟩, hwalks rest hwalks',
      hadvances.apart.trans hapart fun m hm => ⟨known_subset (List.prefix_append _ _) hm.1, fun hm' => ?_⟩⟩
    · obtain ⟨fuel, rfl⟩ := Nat.exists_eq_add_of_le' (Nat.le_of_add_left_le hfuel)
      rw [← List.append_assoc]
      exact (hnext (by omega)).trans (hsettle' fuel (by omega))
    · rcases List.mem_append.1 hm' with hp | hm'
      · exact hm.2 (List.mem_append_left _ hp)
      · exact hm.2 (List.mem_append_right _ (hadvances.within m hm' hm.1))

/-- Walks along rows come to their end: what is ahead, with what may still come in, gets less with every node. -/
theorem comes (n : Nat) : Comes v base bound n := by
  induction n with
  | zero =>
    intro p index s log row hrow hready hlawful hsize
    cases row with
    | nil => exact walkFrom_end hrow hready
    | cons id far =>
      have hbound := (hlawful 0).bound
      rw [Graph.due_cons, List.length_append] at hsize
      have hpositive : 0 < ((v.graph s).preorder id).length := List.length_pos_of_mem Graph.mem_preorder_self
      have hlog : ((finalState (v.recording.walkFrom 0 p index (s, log))).2.flatMap Call.entered).length =
          (log.flatMap Call.entered).length := rfl
      omega
  | succ n ih => exact ih.step

/-- A visit of a tree comes to its end if its calls are sound, no node comes in twice, and only so many come in. -/
theorem exists_walks {top : NodeId} (htest : v.test.check = .ok ()) (htree : (v.graph s).IsTree top)
    (hlawful : ∀ fuel, Lawful v ((v.graph s).preorder top) bound (v.calls fuel top s)) :
    ∃ calls s', Settles (fun fuel => v.recording.visit fuel top) (s, []) () (s', calls) ∧
      v.Walks (v.graph s) [top] calls := by
  have hdue : (v.graph s).due [top] = (v.graph s).preorder top := List.flatMap_singleton _ _
  have hready : Ready ((v.graph s).preorder top) [] none [top] (v.graph s) := by
    refine ⟨fun sib hsib => List.mem_singleton.1 hsib ▸ htree.ends, ?_, ?_, fun _ h => nomatch h⟩
    · exact hdue ▸ htree.nodup
    · rw [known, hdue]
      exact List.subset_append_left _ _
  have hvisit (fuel : Nat) : v.recording.visit fuel top (s, []) =
      (v.recording.walk fuel (.node top) none >>= fun _ => return ()) (s, []) := visit_eq htest
  have hwalk : ∀ fuel, Lawful v ((v.graph s).preorder top) bound
      (finalState (v.recording.walk fuel (.node top) none (s, []))).2 := by
    intro fuel
    refine (hlawful fuel).mono ?_
    rw [calls, hvisit]
    exact Adds.prefix_bind (fun _ => adds_return _) _
  have hat : v.IsAt ((v.graph s).preorder top) bound (((v.graph s).due [top]).length + bound + 1) none top [] s [] :=
    ⟨rfl, hready, (fun _ h => nomatch h), hwalk, Nat.le_succ_of_le (Nat.le_refl _)⟩
  obtain ⟨calls, s', outcome, -, ⟨enough, hsettle⟩, hwalks, -⟩ := Comes.node (comes _) hat
  refine ⟨calls, s', ⟨enough, fun fuel hfuel => ?_⟩, ?_⟩
  · exact (hvisit fuel).trans (bind_eq_of_ok (hsettle fuel hfuel))
  · have h := hwalks [] (.nil _)
    rwa [List.append_nil] at h

end Visitor

end MarkdownTree
