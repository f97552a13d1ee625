import MarkdownTree.Proofs.Walks

/-!
# What a walk passes

The nodes that a walk along a row has to do with are those that were ahead at first and those that come in later
(`Visitor.stock`).  Each call does away with its own node and with all that it does not leave ahead, and none of this is
met again (`Visitor.Walks.pairwise`), so no node is called on twice.  Whatever matches and is ahead of a walk is called
on, unless a call loses it, or an earlier node that it is below (`Visitor.Walks.owed`).
-/

namespace MarkdownTree

/-- Nodes come in with a call. -/
def Call.putsIn (call : Call) : Bool :=
  !call.fresh.isEmpty

/-- What stands in two rows, one after the other, stands in the first one or in the second. -/
theorem append_eq_append_cons {α : Type} {xs ys before after : List α} {x : α} (h : xs ++ ys = before ++ x :: after) :
    (∃ mid, before = xs ++ mid ∧ ys = mid ++ x :: after) ∨ ∃ mid, xs = before ++ x :: mid ∧ after = mid ++ ys := by
  rcases List.append_eq_append_iff.1 h with ⟨mid, rfl, hys⟩ | ⟨mid, rfl, hmid⟩
  · exact .inl ⟨mid, rfl, hys⟩
  · cases mid with
    | nil => exact .inl ⟨[], by rw [List.append_nil, List.append_nil], hmid.symm⟩
    | cons _ mid =>
      obtain ⟨rfl, rfl⟩ := List.cons.inj hmid
      exact .inr ⟨mid, rfl, rfl⟩

namespace Visitor

variable {σ : Type}

/-- The nodes that are ahead of a walk along a row and those that come in with its calls. -/
def stock (g : Graph) (row : List NodeId) (calls : List Call) : List NodeId :=
  g.due row ++ calls.flatMap Call.entered

/-- A call loses a node that was ahead if it neither stays ahead nor is gone into. A node whose children are gone into is
lost itself, unless it was called on. -/
def Loses (v : Visitor σ) (call : Call) (w x : NodeId) : Prop :=
  w ∈ call.node :: v.far call ∧ w ∉ v.onward call ∧ (v.heir call = some w → x = w ∧ w ≠ call.node)

/-- Of the calls one is on the node, or one loses a node that this one is below: itself, if it is the sibling that is
spoken of. -/
def Owed (v : Visitor σ) (calls : List Call) (sib x : NodeId) : Prop :=
  x ∈ calls.map Call.node ∨
    ∃ call ∈ calls, ∃ w, v.Loses call w x ∧ x ∈ call.before.preorder w ∧ (x = sib → w = sib)

variable {v : Visitor σ} {g g₁ : Graph} {row : List NodeId} {calls inner rest : List Call}

/-! ### The stock of a walk -/

private theorem stock_append {kids : List NodeId} : (stock g kids inner ++ stock g₁ row rest).Perm
    ((g.due kids ++ g₁.due row) ++ (inner ++ rest).flatMap Call.entered) := by
  unfold stock
  rw [List.flatMap_append, List.append_assoc, List.append_assoc]
  exact (List.perm_append_comm_assoc _ _ _).append_left _

private theorem stock_past {n : NodeId} (hends : g.Ends n) (hagree : Graph.Agree v.test g g₁ row) :
    (n :: (stock g (orient v.backwards (g.childIds n)) inner ++ stock g₁ row rest)).Perm
      (stock g (n :: row) (inner ++ rest)) := by
  refine (stock_append.cons n).trans ?_
  rw [stock, Graph.due_cons, hends.preorder_eq, hagree.due, List.cons_append, List.cons_append]
  exact (((Graph.due_perm (orient_perm v.backwards _)).append_right _).append_right _).cons n

private theorem stock_call {call : Call} (hfits : v.Fits call)
    (hagree : Graph.Agree v.test call.after g₁ (v.onward call)) :
    (call.node :: (stock call.after (v.inside call) inner ++ stock g₁ (v.onward call) rest)).Subperm
      (v.reach call ++ (inner ++ rest).flatMap Call.entered) := by
  refine (stock_append.cons call.node).subperm.trans ?_
  rw [hagree.due]
  exact hfits.due_subperm.append (List.Subperm.refl _)

private theorem stock_reach {call : Call} : stock call.before (call.node :: v.far call) (call :: calls) =
    v.reach call ++ calls.flatMap Call.entered := by
  rw [stock, List.flatMap_cons, ← List.append_assoc]
  rfl

private theorem node_mem_reach {call : Call} : call.node ∈ v.reach call :=
  List.mem_append_left _ (Graph.subset_due List.mem_cons_self)

namespace Walks

theorem fits (h : v.Walks g row calls) : ∀ call ∈ calls, v.Fits call := by
  induction h with
  | nil => exact fun _ h => absurd h List.not_mem_nil
  | past _ _ _ _ _ ihinner ihrest =>
    intro call hcall
    rcases List.mem_append.1 hcall with hcall | hcall
    · exact ihinner call hcall
    · exact ihrest call hcall
  | call _ hfits _ _ _ ihinner ihrest =>
    intro call hcall
    rcases List.mem_cons.1 hcall with rfl | hcall
    · exact hfits
    · rcases List.mem_append.1 hcall with hcall | hcall
      · exact ihinner call hcall
      · exact ihrest call hcall

/-- What is ahead at a call was ahead at first or has come in. -/
private theorem reach_subset (h : v.Walks g row calls) : ∀ call ∈ calls, v.reach call ⊆ stock g row calls := by
  induction h with
  | nil => exact fun _ h => absurd h List.not_mem_nil
  | past _ hends _ hagree _ ihinner ihrest =>
    intro call hcall m hm
    refine (stock_past hends hagree).subset (List.mem_cons_of_mem _ ?_)
    rcases List.mem_append.1 hcall with hcall | hcall
    · exact List.mem_append_left _ (ihinner call hcall hm)
    · exact List.mem_append_right _ (ihrest call hcall hm)
  | call _ hfits _ hagree _ ihinner ihrest =>
    intro call hcall m hm
    rw [List.cons_append, stock_reach]
    rcases List.mem_cons.1 hcall with rfl | hcall
    · exact List.mem_append_left _ hm
    · refine (stock_call hfits hagree).subset (List.mem_cons_of_mem _ ?_)
      rcases List.mem_append.1 hcall with hcall | hcall
      · exact List.mem_append_left _ (ihinner call hcall hm)
      · exact List.mem_append_right _ (ihrest call hcall hm)

/-- What a call does not leave ahead is not met again. -/
theorem pairwise (h : v.Walks g row calls) (hnodup : (stock g row calls).Nodup) :
    calls.Pairwise fun call call' => ∀ m ∈ v.reach call, m ∉ v.left call → m ∉ v.reach call' := by
  induction h with
  | nil => exact List.Pairwise.nil
  | past _ hends hinner hagree hrest ihinner ihrest =>
    obtain ⟨-, hnodup⟩ := List.nodup_cons.1 ((stock_past hends hagree).nodup_iff.2 hnodup)
    obtain ⟨hnodup, hnodup', hapart⟩ := List.nodup_append'.1 hnodup
    refine List.pairwise_append.2 ⟨ihinner hnodup, ihrest hnodup', fun call hcall call' hcall' m hm _ hm' => ?_⟩
    exact hapart (hinner.reach_subset call hcall hm) (hrest.reach_subset call' hcall' hm')
  | @call call _ inner rest _ hfits hinner hagree hrest ihinner ihrest =>
    rw [List.cons_append, stock_reach] at hnodup
    obtain ⟨-, hparts⟩ := List.nodup_cons.1 (nodup_of_subperm (stock_call hfits hagree) hnodup)
    obtain ⟨hnodup₁, hnodup₂, hapart⟩ := List.nodup_append'.1 hparts
    have hnew := (List.nodup_append'.1 hnodup).2.2
    refine List.pairwise_cons.2 ⟨fun call' hcall' m hm hleft hm' => ?_, List.pairwise_append.2
      ⟨ihinner hnodup₁, ihrest hnodup₂, fun call hcall call' hcall' m hm _ hm' => ?_⟩⟩
    · rcases List.mem_append.1 hcall' with hcall' | hcall'
      · rcases List.mem_append.1 (hinner.reach_subset call' hcall' hm') with hm' | hm'
        · exact hleft (List.mem_append_left _ hm')
        · exact hnew hm (List.flatMap_append ▸ List.mem_append_left _ hm')
      · rcases List.mem_append.1 (hrest.reach_subset call' hcall' hm') with hm' | hm'
        · exact hleft (List.mem_append_right _ (hagree.due ▸ hm'))
        · exact hnew hm (List.flatMap_append ▸ List.mem_append_right _ hm')
    · exact hapart (hinner.reach_subset call hcall hm) (hrest.reach_subset call' hcall' hm')

/-- No node is called on twice. -/
theorem nodup_nodes (h : v.Walks g row calls) (hnodup : (stock g row calls).Nodup) : (calls.map Call.node).Nodup := by
  refine List.pairwise_map.2 (List.Pairwise.imp_of_mem ?_ (h.pairwise hnodup))
  intro call call' hcall hcall' hmet hsame
  have hleft := (List.nodup_cons.1 (h.fits call hcall).left_nodup).1
  exact hmet call.node node_mem_reach hleft (hsame ▸ node_mem_reach)

/-- What a call does away with is met by no call, unless it is its own node. -/
theorem never_called (h : v.Walks g row calls) (hnodup : (stock g row calls).Nodup) {call : Call} (hcall : call ∈ calls)
    {m : NodeId} (hm : m ∈ v.reach call) (hleft : m ∉ v.left call) (hne : m ≠ call.node) : m ∉ calls.map Call.node := by
  obtain ⟨earlier, later, rfl⟩ := List.append_of_mem hcall
  have hpairwise := h.pairwise hnodup
  obtain ⟨-, hlater, hearlier⟩ := List.pairwise_append.1 hpairwise
  intro hmem
  obtain ⟨call', hcall', rfl⟩ := List.mem_map.1 hmem
  rcases List.mem_append.1 hcall' with hcall' | hcall'
  · have hown := (List.nodup_cons.1 (h.fits call' (List.mem_append_left _ hcall')).left_nodup).1
    exact hearlier call' hcall' call List.mem_cons_self call'.node node_mem_reach hown hm
  · rcases List.mem_cons.1 hcall' with rfl | hcall'
    · exact hne rfl
    · exact (List.pairwise_cons.1 hlater).1 call' hcall' call'.node hm hleft node_mem_reach

/-- No call is on what is below a node that a call leads neither into nor to. -/
theorem never_called_below (h : v.Walks g row calls) (hnodup : (stock g row calls).Nodup) {call : Call}
    (hcall : call ∈ calls) {w x : NodeId} (hw : w ∈ call.node :: v.far call ++ call.fresh)
    (hout : w ∉ (v.heir call).toList ++ v.onward call) (hx : x ∈ call.after.preorder w) (hne : x ≠ call.node) :
    x ∉ calls.map Call.node := by
  have hfits := h.fits call hcall
  refine h.never_called hnodup hcall ?_ (hfits.notMem_left hw hout hx) hne
  rw [← hfits.due_after]
  exact Graph.mem_due.2 ⟨w, hw, hx⟩

end Walks

/-! ### What is owed -/

namespace Owed

variable {sib sib' x : NodeId} {calls' : List Call}

private theorem mono (h : v.Owed calls sib x) (hsub : calls ⊆ calls') : v.Owed calls' sib x := by
  rcases h with h | ⟨call, hcall, h⟩
  · exact .inl (List.map_subset _ hsub h)
  · exact .inr ⟨call, hsub hcall, h⟩

/-- What is below a sibling of a sibling's own row is owed as any node below a sibling is. -/
private theorem of_ne (h : v.Owed calls sib x) (hne : x ≠ sib') : v.Owed calls sib' x := by
  rcases h with h | ⟨call, hcall, w, hloses, hx, -⟩
  · exact .inl h
  · exact .inr ⟨call, hcall, w, hloses, hx, fun hsame => absurd hsame hne⟩

end Owed

/-- Below a node lie the trees of its children. -/
private theorem exists_mem_inside {call : Call} (hfits : v.Fits call) {n x : NodeId} (hn : v.heir call = some n)
    (hx : x ∈ call.after.preorder n) (hne : x ≠ n) : ∃ kid ∈ v.inside call, x ∈ call.after.preorder kid :=
  Graph.mem_due.1 ((List.mem_cons.1 ((hfits.perm_inside hn).symm.subset hx)).resolve_left hne)

/-- Just one of the calls is on a node; or none is, and one loses it, or a node that it is below. -/
def Met (lost : Call → NodeId → NodeId → Prop) (calls : List Call) (sib x : NodeId) : Prop :=
  (calls.map Call.node).count x = 1 ∨
    x ∉ calls.map Call.node ∧ ∃ call ∈ calls, ∃ w, lost call w x ∧ x ∈ call.before.preorder w ∧ (x = sib → w = sib)

/-- What matches in the trees of a row is met by calls. -/
def MeetsAll (v : Visitor σ) (lost : Call → NodeId → NodeId → Prop) (calls : List Call) (g : Graph)
    (row : List NodeId) : Prop :=
  ∀ sib ∈ row, ∀ x ∈ g.preorder sib, g.passes v.test x = true → Met lost calls sib x

private theorem Owed.met {lost : Call → NodeId → NodeId → Prop} {sib x : NodeId} (h : v.Owed calls sib x)
    (hnodup : (calls.map Call.node).Nodup) (hlost : ∀ call ∈ calls, ∀ w, v.Loses call w x → lost call w x) :
    Met lost calls sib x := by
  by_cases hx : x ∈ calls.map Call.node
  · exact .inl (List.count_eq_one_of_mem hnodup hx)
  · obtain ⟨call, hcall, w, hloses, hbelow⟩ := h.resolve_left hx
    exact .inr ⟨hx, call, hcall, w, hlost call hcall w hloses, hbelow⟩

namespace Walks

/-- A node that matches and is ahead is called on, or lost. -/
theorem owed (h : v.Walks g row calls) {sib x : NodeId} (hsib : sib ∈ row) (hx : x ∈ g.preorder sib)
    (hpass : g.passes v.test x = true) : v.Owed calls sib x := by
  induction h generalizing sib x with
  | nil => exact absurd hsib List.not_mem_nil
  | @past g _ n _ inner rest hpast hends _ hagree _ ihinner ihrest =>
    rcases List.mem_cons.1 hsib with rfl | hsib
    · have hne : x ≠ sib := fun hsame => hpast (hsame ▸ hpass)
      rw [hends.preorder_eq] at hx
      obtain ⟨kid, hkid, hxkid⟩ := Graph.mem_due.1 ((List.mem_cons.1 hx).resolve_left hne)
      exact ((ihinner ((orient_perm _ _).symm.subset hkid) hxkid hpass).of_ne hne).mono (List.subset_append_left _ _)
    · rw [← hagree.preorder sib hsib] at hx
      rw [← hagree.passes x (Graph.mem_due.2 ⟨sib, hsib, hagree.preorder sib hsib ▸ hx⟩)] at hpass
      exact (ihrest hsib hx hpass).mono (List.subset_append_right _ _)
  | @call call _ inner rest _ hfits _ hagree _ ihinner ihrest =>
    have hahead : sib ∈ call.node :: v.far call := hsib
    have hdue : x ∈ call.before.due (call.node :: v.far call) := Graph.mem_due.2 ⟨sib, hahead, hx⟩
    have hx' : x ∈ call.after.preorder sib := (hfits.agree.preorder sib hahead).symm ▸ hx
    have hpass' : call.after.passes v.test x = true := (hfits.agree.passes x hdue).trans hpass
    by_cases hself : x = call.node
    · exact .inl (hself ▸ List.mem_cons_self)
    by_cases honward : sib ∈ v.onward call
    · rw [← hagree.preorder sib honward] at hx'
      rw [← hagree.passes x (Graph.mem_due.2 ⟨sib, honward, hagree.preorder sib honward ▸ hx'⟩)] at hpass'
      exact (ihrest honward hx' hpass').mono fun _ hc => List.mem_cons_of_mem _ (List.mem_append_right _ hc)
    by_cases hheir : v.heir call = some sib ∧ x ≠ sib
    · obtain ⟨kid, hkid, hxkid⟩ := exists_mem_inside hfits hheir.1 hx' hheir.2
      exact ((ihinner hkid hxkid hpass').of_ne hheir.2).mono fun _ hc =>
        List.mem_cons_of_mem _ (List.mem_append_left _ hc)
    · refine .inr ⟨call, List.mem_cons_self, sib, ⟨hahead, honward, fun hsome => ?_⟩, hx, fun _ => rfl⟩
      have hsame : x = sib := not_not.1 fun hne => hheir ⟨hsome, hne⟩
      exact ⟨hsame, fun hnode => hself (hsame.trans hnode)⟩

/-- After each call, what matches and is below the node that is gone into, or below the siblings along which the walk
goes on, is owed by the calls that follow. -/
private theorem owed_after (h : v.Walks g row calls) {earlier later : List Call} {call : Call}
    (hcalls : calls = earlier ++ call :: later) {sib x : NodeId} (hsib : sib ∈ v.inside call ++ v.onward call)
    (hx : x ∈ call.after.preorder sib) (hpass : call.after.passes v.test x = true) : v.Owed later sib x := by
  have hsplit {inner rest earlier later : List Call}
      (hinner : ∀ {earlier later}, inner = earlier ++ call :: later → v.Owed later sib x)
      (hrest : ∀ {earlier later}, rest = earlier ++ call :: later → v.Owed later sib x)
      (hcalls : inner ++ rest = earlier ++ call :: later) : v.Owed later sib x := by
    rcases append_eq_append_cons hcalls with ⟨_, -, hafter⟩ | ⟨_, hafter, rfl⟩
    · exact hrest hafter
    · exact (hinner hafter).mono (List.subset_append_left _ _)
  induction h generalizing earlier later with
  | nil => exact absurd hcalls.symm (by simp)
  | past _ _ _ _ _ ihinner ihrest => exact hsplit ihinner ihrest hcalls
  | @call first g₁ inner rest _ hfits hinner hagree hrest ihinner ihrest =>
    cases earlier with
    | cons _ earlier => exact hsplit ihinner ihrest (List.cons.inj hcalls).2
    | nil =>
      obtain ⟨rfl, rfl⟩ := List.cons.inj hcalls
      rcases List.mem_append.1 hsib with hsib | hsib
      · exact (hinner.owed hsib hx hpass).mono (List.subset_append_left _ _)
      · rw [← hagree.preorder sib hsib] at hx
        rw [← hagree.passes x (Graph.mem_due.2 ⟨sib, hsib, hagree.preorder sib hsib ▸ hx⟩)] at hpass
        exact (hrest.owed hsib hx hpass).mono (List.subset_append_right _ _)

section Meets

variable {lost : Call → NodeId → NodeId → Prop} (h : v.Walks g row calls) (hnodup : (stock g row calls).Nodup)
  (hlost : ∀ call ∈ calls, ∀ w x, v.Loses call w x → lost call w x)

include h hnodup hlost

/-- A walk meets all that matches in the trees of its row. -/
theorem meetsAll : v.MeetsAll lost calls g row :=
  fun _ hsib x hx hpass => (h.owed hsib hx hpass).met (h.nodup_nodes hnodup) fun call hcall w => hlost call hcall w x

/-- After a call a walk meets all that matches in the trees into which and to which it leads. -/
theorem meetsAll_after {earlier later : List Call} {call : Call} (hcalls : calls = earlier ++ call :: later)
    {row' : List NodeId} (hrow : row' ⊆ v.inside call ++ v.onward call) : v.MeetsAll lost later call.after row' := by
  intro sib hsib x hx hpass
  have hlater : later.Sublist calls :=
    hcalls ▸ (List.sublist_cons_self call later).trans (List.sublist_append_right _ _)
  refine (h.owed_after hcalls (hrow hsib) hx hpass).met ?_ fun call hcall w => hlost call (hlater.subset hcall) w x
  exact (h.nodup_nodes hnodup).sublist (hlater.map _)

end Meets

end Walks

/-! ### Visits of trees -/

section Visit

variable {top : NodeId} {s : σ}

private theorem calls_grows (htest : v.test.check = .ok ()) {fuel fuel' : Nat} (h : fuel ≤ fuel') :
    v.calls fuel top s <+: v.calls fuel' top s :=
  (cut_visit htest h top (s, [])).grows

/-- A visit that comes to its end has made all the calls that it makes with any fuel. -/
theorem calls_grows_of_ends (htest : v.test.check = .ok ()) {enough : Nat} {s' : σ}
    (hvisit : v.visit enough top s = .ok () s') (fuel : Nat) : v.calls fuel top s <+: v.calls enough top s := by
  rcases Nat.le_total fuel enough with hle | hle
  · exact calls_grows htest hle
  · have hforget := v.visit_recording enough top (s, [])
    rw [hvisit] at hforget
    cases hrecord : v.recording.visit enough top (s, []) with
    | error fault t => rw [hrecord] at hforget; cases hforget
    | ok _ t =>
      have hmore := (cut_visit htest hle top (s, [])).eq_ok hrecord
      have hsame : v.calls fuel top s = v.calls enough top s := by rw [calls, calls, hrecord, hmore]
      exact hsame ▸ List.prefix_refl _

/-- If nodes come in with only so many calls, only so many nodes come in: from some fuel on there is no such call any
more. -/
private theorem exists_bound (htest : v.test.check = .ok ())
    (hfinite : ∃ bound, ∀ fuel, ((v.calls fuel top s).filter Call.putsIn).length ≤ bound) :
    ∃ bound, ∀ fuel, ((v.calls fuel top s).flatMap Call.entered).length ≤ bound := by
  obtain ⟨bound, hbound⟩ := hfinite
  let count := fun fuel => ((v.calls fuel top s).filter Call.putsIn).length
  let last := Function.argmin fun fuel => bound - count fuel
  have hlast (fuel : Nat) : count fuel ≤ count last := by
    have hmin : bound - count last ≤ bound - count fuel := Function.argmin_le (fun fuel => bound - count fuel) fuel
    have hfuel : count fuel ≤ bound := hbound fuel
    have hlast : count last ≤ bound := hbound last
    omega
  refine ⟨((v.calls last top s).flatMap Call.entered).length, fun fuel => ?_⟩
  rcases Nat.le_total fuel last with hle | hle
  · obtain ⟨more, hmore⟩ := calls_grows htest hle
    rw [← hmore]
    exact length_entered_le _ more
  · obtain ⟨more, hmore⟩ := calls_grows htest hle
    have hnone : more.filter Call.putsIn = [] := by
      have hcount := hlast fuel
      unfold count at hcount
      rw [← hmore, List.filter_append, List.length_append] at hcount
      exact List.length_eq_zero_iff.1 (by omega)
    have hentered : more.flatMap Call.entered = [] := by
      refine List.flatMap_eq_nil_iff.2 fun call hcall => ?_
      have hfresh := List.filter_eq_nil_iff.1 hnone call hcall
      rw [Call.putsIn, Bool.not_eq_true, Bool.not_eq_false', List.isEmpty_iff] at hfresh
      rw [Call.entered, hfresh, Graph.due_nil]
    rw [← hmore, List.flatMap_append, hentered, List.append_nil]

/-- A visit of a tree comes to its end if its calls are sound, no node comes in twice, and nodes come in with only so
many calls. -/
theorem exists_passage (htest : v.test.check = .ok ()) (htree : (v.graph s).IsTree top)
    (hsound : ∀ fuel, ∀ call ∈ v.calls fuel top s, call.Situated → v.Sound call)
    (hfresh : ∀ fuel, ((v.graph s).preorder top ++ (v.calls fuel top s).flatMap Call.entered).Nodup)
    (hfinite : ∃ bound, ∀ fuel, ((v.calls fuel top s).filter Call.putsIn).length ≤ bound) :
    ∃ calls s' enough, (∀ fuel, enough ≤ fuel → v.visit fuel top s = .ok () s' ∧ v.calls fuel top s = calls) ∧
      v.Walks (v.graph s) [top] calls ∧ (stock (v.graph s) [top] calls).Nodup := by
  obtain ⟨bound, hbound⟩ := exists_bound htest hfinite
  obtain ⟨calls, s', ⟨enough, hsettles⟩, hwalks⟩ :=
    exists_walks htest htree fun fuel => ⟨hsound fuel, hfresh fuel, hbound fuel⟩
  have hvisit {fuel : Nat} (hfuel : enough ≤ fuel) : v.recording.visit fuel top (s, []) = .ok () (s', calls) :=
    hsettles fuel hfuel
  have hcalls {fuel : Nat} (hfuel : enough ≤ fuel) : v.calls fuel top s = calls := by
    rw [Visitor.calls, hvisit hfuel]
    rfl
  refine ⟨calls, s', enough, fun fuel hfuel => ⟨?_, hcalls hfuel⟩, hwalks, ?_⟩
  · have hforget := v.visit_recording fuel top (s, [])
    rw [hvisit hfuel] at hforget
    exact hforget.symm
  · have hstock : stock (v.graph s) [top] calls = (v.graph s).preorder top ++ calls.flatMap Call.entered :=
      congrArg (· ++ calls.flatMap Call.entered) (List.flatMap_singleton _ _)
    rw [hstock, ← hcalls (Nat.le_refl enough)]
    exact hfresh enough

end Visit

end Visitor

end MarkdownTree
