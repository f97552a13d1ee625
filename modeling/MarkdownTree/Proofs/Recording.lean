import MarkdownTree.Graph.Visit

/-!
# Recorded visits

A visit that keeps a record of its calls: which node the callback was called on, where it stood, and what the nodes were
before and after (`Visitor.recording`).  The record makes no difference to the visit (`Visitor.visit_recording`), it only
grows, and a walk that is cut off before its end has made the first of the calls that a longer walk makes
(`Visitor.cut_visit`).
-/

namespace MarkdownTree

/-- A call of a callback: the node and its seat, the nodes before and after the call, and what was answered. -/
structure Call where
  node : NodeId
  seat : Option Seat
  before : Graph
  after : Graph
  answer : Except Fault Reply

/-- The state in which work ends. -/
def finalState {ε σ α : Type} : EStateM.Result ε σ α → σ
  | .ok _ s => s
  | .error _ s => s

/-- A row in the direction of a walk. -/
def orient {α : Type} (backwards : Bool) (xs : List α) : List α :=
  if backwards then xs.reverse else xs

/-- What a walk that is at an index of a row has before it, in the direction of the walk. -/
def ahead {α : Type} (backwards : Bool) (xs : List α) (index : Int) : List α :=
  if index < 0 ∨ xs.length ≤ index.toNat then []
  else if backwards then (xs.take (index.toNat + 1)).reverse
  else xs.drop index.toNat

namespace Visitor

variable {σ : Type} (v : Visitor σ)

/-- The walk that also keeps a record of its calls. -/
def recording : Visitor (σ × List Call) where
  graph s := v.graph s.1
  test := v.test
  backwards := v.backwards
  callback id seat s :=
    match v.callback id seat s.1 with
    | .ok reply s' => .ok reply (s', s.2 ++ [⟨id, seat, v.graph s.1, v.graph s', .ok reply⟩])
    | .error fault s' => .error fault (s', s.2 ++ [⟨id, seat, v.graph s.1, v.graph s', .error fault⟩])

/-- The calls that a visit makes. -/
def calls (fuel : Nat) (id : NodeId) (s : σ) : List Call :=
  (finalState (v.recording.visit fuel id (s, []))).2

/-! ### What a walk does at a node -/

/-- What the walk goes into after a call that lets it go on, and where it goes after that. -/
def lead (id : NodeId) (seat : Option Seat) (before after : Graph) : Option Item × Outcome :=
  let index := (seat.map Seat.index).getD 0
  match standingOf after (siblingCount before seat) id seat with
  | .same => (some (.node id), .next)
  | .moved i => (some (.node id), .goto (v.step i))
  | .removed => (none, .goto (if v.backwards then (index : Int) - 1 else index))
  | .replaced item => (some item, .next)
  | .vanished => (none, .next)

/-- Goes where a call leads. -/
def follow (fuel : Nat) : Option Item × Outcome → EStateM Fault σ Outcome
  | (some item, outcome) => v.descend fuel item outcome
  | (none, outcome) => return outcome

/-- Does as the callback replies. -/
def comply (fuel : Nat) (id : NodeId) (seat : Option Seat) (before : Graph) : Reply → EStateM Fault σ Outcome
  | .invalid value => throw (.type (.visitReply value))
  | .stop => return .stop
  | .skip => return .next
  | .goto i => return .goto i
  | .proceed => do v.follow fuel (v.lead id seat before (v.graph (← get)))

variable {fuel : Nat} {id : NodeId} {seat : Option Seat} {s s' : σ}

theorem walk_node : v.walk (fuel + 1) (.node id) seat s =
    if (v.graph s).passes v.test id then (v.callback id seat >>= v.comply fuel id seat (v.graph s)) s
    else v.descend fuel (.node id) .next s := by
  have hwalk : v.walk (fuel + 1) (.node id) seat s =
      (if (v.graph s).passes v.test id then do
        match ← v.callback id seat with
        | .invalid value => throw (.type (.visitReply value))
        | .stop => return .stop
        | .skip => return .next
        | .goto i => return .goto i
        | .proceed =>
          let index := (seat.map Seat.index).getD 0
          match standingOf (v.graph (← get)) (siblingCount (v.graph s) seat) id seat with
          | .same => v.descend fuel (.node id) .next
          | .moved i => v.descend fuel (.node id) (.goto (v.step i))
          | .removed => return .goto (if v.backwards then (index : Int) - 1 else index)
          | .replaced item => v.descend fuel item .next
          | .vanished => return .next
      else v.descend fuel (.node id) .next) s := rfl
  rw [hwalk]
  split
  · refine congrFun (bind_congr fun reply => ?_) s
    cases reply with
    | proceed =>
      refine bind_congr fun s' => ?_
      unfold lead
      cases standingOf (v.graph s') (siblingCount (v.graph s) seat) id seat <;> rfl
    | _ => rfl
  · rfl

/-- Ends a walk of children: the walk goes where it is told, unless it is over. -/
def settle (resume : Outcome) : Outcome → EStateM Fault σ Outcome
  | .stop => return .stop
  | _ => return resume

/-- Goes on with the siblings of a child that was walked, unless the walk is over. -/
def goOn (fuel : Nat) (id : NodeId) (index : Nat) : Outcome → EStateM Fault σ Outcome
  | .stop => return .stop
  | outcome => v.walkFrom fuel id (v.after index outcome)

private theorem descend_node {resume : Outcome} : v.descend (fuel + 1) (.node id) resume s =
    match v.checkItems (v.graph s) id with
    | .error fault => .error fault s
    | .ok () => (v.walkFrom fuel id (v.firstIndex (v.graph s) id) >>= settle resume) s := by
  have hdescend : v.descend (fuel + 1) (.node id) resume s = (do
      match v.checkItems (v.graph s) id with
      | .error fault => throw fault
      | .ok () => pure ()
      match ← v.walkFrom fuel id (v.firstIndex (v.graph (← get)) id) with
      | .stop => return .stop
      | _ => return resume : EStateM Fault σ Outcome) s := rfl
  rw [hdescend]
  cases v.checkItems (v.graph s) id with
  | error fault => rfl
  | ok _ =>
    have hsettle : (fun outcome : Outcome => (match outcome with
        | .stop => return .stop
        | _ => return resume : EStateM Fault σ Outcome)) = settle resume := by
      funext outcome
      cases outcome <;> rfl
    rw [← hsettle]
    rfl

private theorem walkFrom_eq {index : Int} : v.walkFrom (fuel + 1) id index s =
    if index < 0 then .ok .next s
    else
      match ((v.graph s).items id)[index.toNat]? with
      | none => .ok .next s
      | some child => (v.walk fuel child (some ⟨index.toNat, id⟩) >>= v.goOn fuel id index.toNat) s := by
  rw [walkFrom]
  by_cases hindex : index < 0
  · rw [if_pos hindex, if_pos hindex]
    rfl
  · rw [if_neg hindex, if_neg hindex]
    have hgoOn : (fun outcome : Outcome => (match outcome with
        | .stop => return .stop
        | outcome => v.walkFrom fuel id (v.after index.toNat outcome) : EStateM Fault σ Outcome)) =
        v.goOn fuel id index.toNat := by
      funext outcome
      cases outcome <;> rfl
    rw [← hgoOn]
    show (match ((v.graph s).items id)[index.toNat]? with
      | none => return .next
      | some child => v.walk fuel child (some ⟨index.toNat, id⟩) >>= _ : EStateM Fault σ Outcome) s = _
    cases ((v.graph s).items id)[index.toNat]? <;> rfl

/-! ### What lies ahead -/

section Ahead

variable {α : Type} {xs : List α} {x : α} {index : Int}

theorem orient_perm (backwards : Bool) (xs : List α) : (orient backwards xs).Perm xs := by
  unfold orient
  split
  · exact List.reverse_perm xs
  · exact List.Perm.refl xs

private theorem ahead_of_neg {backwards : Bool} (h : index < 0) : ahead backwards xs index = [] :=
  if_pos (.inl h)

private theorem ahead_of_none {backwards : Bool} (h : xs[index.toNat]? = none) : ahead backwards xs index = [] :=
  if_pos (.inr (List.getElem?_eq_none_iff.1 h))

theorem ahead_forwards (n : Nat) : ahead false xs n = xs.drop n := by
  unfold ahead
  split
  · exact (List.drop_eq_nil_of_le (by omega)).symm
  · rfl

theorem ahead_backwards {n : Nat} (h : n ≤ xs.length) : ahead true xs ((n : Int) - 1) = (xs.take n).reverse := by
  unfold ahead
  split
  · rw [List.take_eq_nil_iff.2 (by omega), List.reverse_nil]
  · rw [show ((n : Int) - 1).toNat + 1 = n by omega]
    rfl

private theorem ahead_cons (hindex : ¬index < 0) (hx : xs[index.toNat]? = some x) :
    ahead v.backwards xs index = x :: ahead v.backwards xs (v.step index.toNat) := by
  obtain ⟨hlt, rfl⟩ := List.getElem?_eq_some_iff.1 hx
  obtain ⟨i, rfl⟩ := Int.eq_ofNat_of_zero_le (Int.not_lt.1 hindex)
  have hlt : i < xs.length := hlt
  show ahead v.backwards xs i = xs[i] :: ahead v.backwards xs (v.step i)
  unfold step
  cases v.backwards with
  | false =>
    have hnext : ahead false xs ((i : Int) + 1) = xs.drop (i + 1) := ahead_forwards (i + 1)
    rw [if_neg Bool.false_ne_true, hnext, ahead_forwards, List.drop_eq_getElem_cons hlt]
  | true =>
    have hthis : ahead true xs (i : Int) = (xs.take (i + 1)).reverse := by
      rw [← ahead_backwards (show i + 1 ≤ xs.length from hlt)]
      congr 1
      omega
    rw [if_pos rfl, hthis, ahead_backwards (Nat.le_of_lt hlt), List.take_add_one, List.getElem?_eq_getElem hlt,
      Option.toList_some, List.reverse_append, List.reverse_singleton, List.singleton_append]

theorem ahead_eq_nil_iff : ahead v.backwards xs index = [] ↔ index < 0 ∨ xs[index.toNat]? = none := by
  constructor
  · intro h
    by_cases hindex : index < 0
    · exact .inl hindex
    · cases hx : xs[index.toNat]? with
      | none => exact .inr rfl
      | some x => cases (v.ahead_cons hindex hx).symm.trans h
  · rintro (h | h)
    · exact ahead_of_neg h
    · exact ahead_of_none h

theorem ahead_eq_cons_iff {rest : List α} : ahead v.backwards xs index = x :: rest ↔
    ¬index < 0 ∧ xs[index.toNat]? = some x ∧ ahead v.backwards xs (v.step index.toNat) = rest := by
  constructor
  · intro h
    have hsome : ¬(index < 0 ∨ xs[index.toNat]? = none) := by
      rw [← v.ahead_eq_nil_iff, h]
      exact List.cons_ne_nil x rest
    obtain ⟨hindex, hx⟩ := not_or.1 hsome
    obtain ⟨y, hy⟩ := Option.ne_none_iff_exists'.1 hx
    rw [v.ahead_cons hindex hy] at h
    obtain ⟨rfl, rfl⟩ := List.cons.inj h
    exact ⟨hindex, hy, rfl⟩
  · rintro ⟨hindex, hx, rfl⟩
    exact v.ahead_cons hindex hx

theorem ahead_sublist {backwards : Bool} : (ahead backwards xs index).Sublist (orient backwards xs) := by
  unfold ahead orient
  split
  · exact List.nil_sublist _
  · cases backwards with
    | false => exact List.drop_sublist _ _
    | true => exact (List.take_sublist _ _).reverse

theorem ahead_firstIndex {g : Graph} (hlength : xs.length = (g.items id).length) :
    ahead v.backwards xs (v.firstIndex g id) = orient v.backwards xs := by
  unfold firstIndex orient
  rw [← hlength]
  cases v.backwards with
  | false => exact (ahead_forwards 0).trans List.drop_zero
  | true => exact (ahead_backwards (Nat.le_refl _)).trans (by rw [List.take_length]; rfl)

end Ahead

/-! ### Work one after the other -/

section Bind

variable {τ α β : Type} {x : EStateM Fault τ α} {f : α → EStateM Fault τ β} {t t' : τ}

theorem bind_eq_of_ok {a : α} (h : x t = .ok a t') : (x >>= f) t = f a t' := by
  show EStateM.bind x f t = _
  rw [EStateM.bind, h]

theorem bind_eq_of_error {fault : Fault} (h : x t = .error fault t') : (x >>= f) t = .error fault t' := by
  show EStateM.bind x f t = _
  rw [EStateM.bind, h]

end Bind

/-! ### Steps of a recorded visit -/

section Steps

variable {g : Graph} {answer : Reply} {index : Int} {t : σ × List Call} {child : NodeId}

private theorem recording_callback (hcall : v.callback id seat t.1 = .ok answer s') : v.recording.callback id seat t =
    .ok answer (s', t.2 ++ [⟨id, seat, v.graph t.1, v.graph s', .ok answer⟩]) := by
  show (match v.callback id seat t.1 with
    | .ok reply s' => .ok reply (s', t.2 ++ [⟨id, seat, v.graph t.1, v.graph s', .ok reply⟩])
    | .error fault s' => .error fault (s', t.2 ++ [⟨id, seat, v.graph t.1, v.graph s', .error fault⟩]) :
    EStateM.Result Fault (σ × List Call) Reply) = _
  rw [hcall]

/-- A call after which the node stands where it stood leads to what is below it. -/
theorem lead_of_same {before after : Graph}
    (hseat : ∀ p, seat = some p → (after.items p.parent)[p.index]? = some (.node id)) :
    v.lead id seat before after = (some (.node id), .next) := by
  have hstanding : standingOf after (siblingCount before seat) id seat = .same := by
    cases seat with
    | none => rfl
    | some p => exact if_pos (hseat p rfl)
  rw [lead, hstanding]

theorem walk_unmatched (hpass : ¬(v.graph t.1).passes v.test id = true) :
    v.recording.walk (fuel + 1) (.node id) seat t = v.recording.descend fuel (.node id) .next t := by
  rw [walk_node]
  exact if_neg hpass

theorem walk_matched (hpass : (v.graph t.1).passes v.test id = true) (hcall : v.callback id seat t.1 = .ok answer s') :
    v.recording.walk (fuel + 1) (.node id) seat t = v.recording.comply fuel id seat (v.graph t.1) answer
      (s', t.2 ++ [⟨id, seat, v.graph t.1, v.graph s', .ok answer⟩]) := by
  rw [walk_node]
  exact (if_pos hpass).trans (bind_eq_of_ok (v.recording_callback hcall))

theorem descend_row {resume : Outcome} (hcheck : (v.graph t.1).stray? id = none) :
    v.recording.descend (fuel + 1) (.node id) resume t =
      (v.recording.walkFrom fuel id (v.firstIndex (v.graph t.1) id) >>= settle resume) t := by
  have hitems : v.recording.checkItems (v.recording.graph t) id = .ok () := by
    show v.checkItems (v.graph t.1) id = .ok ()
    rw [checkItems, hcheck]
  rw [descend_node, hitems]
  rfl

theorem walkFrom_nil (hindex : index < 0 ∨ ((v.graph t.1).items id)[index.toNat]? = none) :
    v.recording.walkFrom (fuel + 1) id index t = .ok .next t := by
  rw [walkFrom_eq]
  split
  · rfl
  · rename_i hpos
    have hnone : ((v.recording.graph t).items id)[index.toNat]? = none := hindex.resolve_left hpos
    rw [hnone]

theorem walkFrom_cons (hindex : ¬index < 0) (hchild : ((v.graph t.1).items id)[index.toNat]? = some (.node child)) :
    v.recording.walkFrom (fuel + 1) id index t =
      (v.recording.walk fuel (.node child) (some ⟨index.toNat, id⟩) >>= v.recording.goOn fuel id index.toNat) t := by
  have hsome : ((v.recording.graph t).items id)[index.toNat]? = some (.node child) := hchild
  rw [walkFrom_eq, if_neg hindex, hsome]

end Steps

/-! ### The record only grows -/

section Growth

variable {α β : Type}

/-- Work that keeps the record and may add to it. -/
def Adds (x : EStateM Fault (σ × List Call) α) : Prop :=
  ∀ s, s.2 <+: (finalState (x s)).2

/-- The first result is the second, or it is that of work which was cut off for lack of fuel before it had done as
much. -/
def Cut (r r' : EStateM.Result Fault (σ × List Call) α) : Prop :=
  r = r' ∨ ∃ s, r = .error .endless s ∧ s.2 <+: (finalState r').2

theorem adds_return (a : α) : Adds (return a : EStateM Fault (σ × List Call) α) :=
  fun s => List.prefix_refl s.2

private theorem adds_throw (fault : Fault) : Adds (throw fault : EStateM Fault (σ × List Call) α) :=
  fun s => List.prefix_refl s.2

private theorem Adds.bind {x : EStateM Fault (σ × List Call) α} {f : α → EStateM Fault (σ × List Call) β} (hx : Adds x)
    (hf : ∀ a, Adds (f a)) : Adds (x >>= f) := by
  intro s
  have hfirst := hx s
  cases h : x s with
  | ok a s' =>
    rw [h] at hfirst
    rw [bind_eq_of_ok h]
    exact hfirst.trans (hf a s')
  | error fault s' =>
    rw [h] at hfirst
    rw [bind_eq_of_error h]
    exact hfirst

theorem Adds.prefix_bind {x : EStateM Fault (σ × List Call) α} {f : α → EStateM Fault (σ × List Call) β}
    (hf : ∀ a, Adds (f a)) (t : σ × List Call) : (finalState (x t)).2 <+: (finalState ((x >>= f) t)).2 := by
  cases h : x t with
  | ok a t' =>
    rw [bind_eq_of_ok h]
    exact hf a t'
  | error fault t' =>
    rw [bind_eq_of_error h]
    exact List.prefix_refl _

private theorem Cut.refl (r : EStateM.Result Fault (σ × List Call) α) : Cut r r :=
  .inl rfl

theorem Cut.grows {r r' : EStateM.Result Fault (σ × List Call) α} (h : Cut r r') :
    (finalState r).2 <+: (finalState r').2 := by
  rcases h with rfl | ⟨s, rfl, hs⟩
  · exact List.prefix_refl _
  · exact hs

theorem Cut.eq_ok {r r' : EStateM.Result Fault (σ × List Call) α} {a : α} {s : σ × List Call} (h : Cut r r')
    (hr : r = .ok a s) : r' = .ok a s := by
  rcases h with rfl | ⟨s', hs, -⟩
  · exact hr
  · cases hs.symm.trans hr

private theorem Cut.trans {r₁ r₂ r₃ : EStateM.Result Fault (σ × List Call) α} (h₁ : Cut r₁ r₂) (h₂ : Cut r₂ r₃) :
    Cut r₁ r₃ := by
  rcases h₁ with rfl | ⟨s, hs, hgrows⟩
  · exact h₂
  · exact .inr ⟨s, hs, hgrows.trans h₂.grows⟩

private theorem Cut.bind {x x' : EStateM Fault (σ × List Call) α} {f f' : α → EStateM Fault (σ × List Call) β}
    {s : σ × List Call} (hx : Cut (x s) (x' s)) (hf : ∀ a s, Cut (f a s) (f' a s)) (hadds : ∀ a, Adds (f' a)) :
    Cut ((x >>= f) s) ((x' >>= f') s) := by
  rcases hx with hsame | ⟨s', hs', hgrows⟩
  · cases h : x' s with
    | ok a s' =>
      rw [bind_eq_of_ok (hsame.trans h), bind_eq_of_ok h]
      exact hf a s'
    | error fault s' =>
      rw [bind_eq_of_error (hsame.trans h), bind_eq_of_error h]
      exact Cut.refl _
  · refine .inr ⟨s', bind_eq_of_error hs', ?_⟩
    cases h : x' s with
    | ok a s'' =>
      rw [h] at hgrows
      rw [bind_eq_of_ok h]
      exact hgrows.trans (hadds a s'')
    | error fault s'' =>
      rw [h] at hgrows
      rw [bind_eq_of_error h]
      exact hgrows

private theorem adds_callback (id : NodeId) (seat : Option Seat) : Adds (v.recording.callback id seat) := by
  intro s
  unfold recording
  dsimp only
  cases v.callback id seat s.1 with
  | ok reply s' => exact List.prefix_append _ _
  | error fault s' => exact List.prefix_append _ _

theorem adds_settle (resume outcome : Outcome) : Adds (σ := σ) (settle resume outcome) := by
  cases outcome <;> exact adds_return _

private theorem adds_follow {fuel : Nat} (hdescend : ∀ item resume, Adds (v.recording.descend fuel item resume))
    (target : Option Item × Outcome) : Adds (v.recording.follow fuel target) := by
  obtain ⟨_ | item, outcome⟩ := target
  · exact adds_return _
  · exact hdescend item outcome

theorem adds_comply {fuel : Nat} (hdescend : ∀ item resume, Adds (v.recording.descend fuel item resume)) (id : NodeId)
    (seat : Option Seat) (before : Graph) (reply : Reply) : Adds (v.recording.comply fuel id seat before reply) := by
  cases reply with
  | proceed => exact fun t => v.adds_follow hdescend _ t
  | invalid value => exact adds_throw _
  | _ => exact adds_return _

theorem adds_goOn {fuel : Nat} (hfrom : ∀ id index, Adds (v.recording.walkFrom fuel id index)) (id : NodeId)
    (index : Nat) (outcome : Outcome) : Adds (v.recording.goOn fuel id index outcome) := by
  cases outcome with
  | stop => exact adds_return _
  | _ => exact hfrom _ _

/-- No part of a recorded walk takes anything out of the record. -/
theorem adds_walk (fuel : Nat) : (∀ item seat, Adds (v.recording.walk fuel item seat)) ∧
    (∀ item resume, Adds (v.recording.descend fuel item resume)) ∧
    ∀ id index, Adds (v.recording.walkFrom fuel id index) := by
  induction fuel with
  | zero => exact ⟨fun _ _ => adds_throw _, fun _ _ => adds_throw _, fun _ _ => adds_throw _⟩
  | succ fuel ih =>
    obtain ⟨hwalk, hdescend, hfrom⟩ := ih
    refine ⟨fun item seat s => ?_, fun item resume s => ?_, fun id index s => ?_⟩
    · cases item with
      | value _ => exact adds_throw _ s
      | node id =>
        rw [walk_node]
        split
        · exact Adds.bind (v.adds_callback id seat) (v.adds_comply hdescend id seat _) s
        · exact hdescend _ _ s
    · cases item with
      | value _ => exact adds_throw _ s
      | node id =>
        rw [descend_node]
        split
        · exact List.prefix_refl _
        · exact Adds.bind (hfrom _ _) (adds_settle resume) s
    · rw [walkFrom_eq]
      split
      · exact List.prefix_refl _
      · split
        · exact List.prefix_refl _
        · exact Adds.bind (hwalk _ _) (v.adds_goOn hfrom _ _) s

/-- More fuel does not change what a recorded walk does until its fuel runs out. -/
private theorem cut_walk (fuel : Nat) :
    (∀ item seat s, Cut (v.recording.walk fuel item seat s) (v.recording.walk (fuel + 1) item seat s)) ∧
    (∀ item resume s, Cut (v.recording.descend fuel item resume s) (v.recording.descend (fuel + 1) item resume s)) ∧
    ∀ id index s, Cut (v.recording.walkFrom fuel id index s) (v.recording.walkFrom (fuel + 1) id index s) := by
  induction fuel with
  | zero =>
    obtain ⟨hwalk, hdescend, hfrom⟩ := v.adds_walk 1
    exact ⟨fun item seat s => .inr ⟨s, rfl, hwalk item seat s⟩,
      fun item resume s => .inr ⟨s, rfl, hdescend item resume s⟩,
      fun id index s => .inr ⟨s, rfl, hfrom id index s⟩⟩
  | succ fuel ih =>
    obtain ⟨hwalk, hdescend, hfrom⟩ := ih
    obtain ⟨-, hadds, haddsFrom⟩ := v.adds_walk (fuel + 1)
    refine ⟨fun item seat s => ?_, fun item resume s => ?_, fun id index s => ?_⟩
    · cases item with
      | value _ => exact Cut.refl _
      | node id =>
        have hfollow (target : Option Item × Outcome) (s : σ × List Call) :
            Cut (v.recording.follow fuel target s) (v.recording.follow (fuel + 1) target s) := by
          obtain ⟨_ | item, outcome⟩ := target
          · exact Cut.refl _
          · exact hdescend item outcome s
        rw [walk_node, walk_node]
        split
        · refine Cut.bind (Cut.refl _) (fun reply s' => ?_) (v.adds_comply hadds id seat _)
          cases reply with
          | proceed => exact hfollow _ s'
          | _ => exact Cut.refl _
        · exact hdescend _ _ s
    · cases item with
      | value _ => exact Cut.refl _
      | node id =>
        rw [descend_node, descend_node]
        split
        · exact Cut.refl _
        · exact Cut.bind (hfrom _ _ s) (fun _ _ => Cut.refl _) (adds_settle resume)
    · rw [walkFrom_eq, walkFrom_eq]
      split
      · exact Cut.refl _
      · split
        · exact Cut.refl _
        · refine Cut.bind (hwalk _ _ s) (fun outcome s' => ?_) (v.adds_goOn haddsFrom _ _)
          cases outcome with
          | stop => exact Cut.refl _
          | _ => exact hfrom _ _ s'

variable {v}

private theorem cut_walk_of_le {fuel fuel' : Nat} (h : fuel ≤ fuel') (item : Item) (seat : Option Seat)
    (s : σ × List Call) :
    Cut (v.recording.walk fuel item seat s) (v.recording.walk fuel' item seat s) := by
  induction h with
  | refl => exact Cut.refl _
  | step _ ih => exact ih.trans ((v.cut_walk _).1 item seat s)

theorem cut_walkFrom_of_le {fuel fuel' : Nat} (h : fuel ≤ fuel') (id : NodeId) (index : Int) (s : σ × List Call) :
    Cut (v.recording.walkFrom fuel id index s) (v.recording.walkFrom fuel' id index s) := by
  induction h with
  | refl => exact Cut.refl _
  | step _ ih => exact ih.trans ((v.cut_walk _).2.2 id index s)

/-- A visit of a valid test is the walk of its start. -/
theorem visit_eq {v : Visitor σ} (htest : v.test.check = .ok ()) :
    v.visit fuel id s = (v.walk fuel (.node id) none >>= fun _ => return ()) s := by
  rw [visit, htest]

/-- A visit with less fuel makes the first of the calls of one with more fuel, and one that comes to its end is the same
with more. -/
theorem cut_visit (htest : v.test.check = .ok ()) {fuel fuel' : Nat} (h : fuel ≤ fuel') (id : NodeId)
    (s : σ × List Call) : Cut (v.recording.visit fuel id s) (v.recording.visit fuel' id s) := by
  have htest' : v.recording.test.check = .ok () := htest
  rw [visit_eq htest', visit_eq htest']
  exact Cut.bind (cut_walk_of_le h _ _ s) (fun _ _ => Cut.refl _) fun _ => adds_return _

end Growth

/-! ### The record makes no difference -/

section Forget

variable {α β : Type}

/-- A result without the record. -/
def forget : EStateM.Result Fault (σ × List Call) α → EStateM.Result Fault σ α
  | .ok a s => .ok a s.1
  | .error fault s => .error fault s.1

private theorem forget_bind {x : EStateM Fault σ α} {y : EStateM Fault (σ × List Call) α} {f : α → EStateM Fault σ β}
    {g : α → EStateM Fault (σ × List Call) β} {s : σ × List Call} (hx : forget (y s) = x s.1)
    (hf : ∀ a s, forget (g a s) = f a s.1) : forget ((y >>= g) s) = (x >>= f) s.1 := by
  cases hy : y s with
  | ok a s' =>
    rw [hy] at hx
    rw [bind_eq_of_ok hy, bind_eq_of_ok hx.symm]
    exact hf a s'
  | error fault s' =>
    rw [hy] at hx
    rw [bind_eq_of_error hy, bind_eq_of_error hx.symm]
    rfl

private theorem forget_callback (id : NodeId) (seat : Option Seat) (s : σ × List Call) :
    forget (v.recording.callback id seat s) = v.callback id seat s.1 := by
  unfold recording
  dsimp only
  cases v.callback id seat s.1 <;> rfl

private theorem forget_walk (fuel : Nat) :
    (∀ item seat s, forget (v.recording.walk fuel item seat s) = v.walk fuel item seat s.1) ∧
    (∀ item resume s, forget (v.recording.descend fuel item resume s) = v.descend fuel item resume s.1) ∧
    ∀ id index s, forget (v.recording.walkFrom fuel id index s) = v.walkFrom fuel id index s.1 := by
  induction fuel with
  | zero => exact ⟨fun _ _ _ => rfl, fun _ _ _ => rfl, fun _ _ _ => rfl⟩
  | succ fuel ih =>
    obtain ⟨hwalk, hdescend, hfrom⟩ := ih
    refine ⟨fun item seat s => ?_, fun item resume s => ?_, fun id index s => ?_⟩
    · cases item with
      | value _ => rfl
      | node id =>
        rw [walk_node, walk_node]
        show forget (if (v.graph s.1).passes v.test id then _ else _) = _
        split
        · refine forget_bind (v.forget_callback id seat s) fun reply s' => ?_
          cases reply with
          | proceed =>
            show forget (v.recording.follow fuel (v.lead id seat (v.graph s.1) (v.graph s'.1)) s') =
              v.follow fuel (v.lead id seat (v.graph s.1) (v.graph s'.1)) s'.1
            obtain ⟨_ | item, outcome⟩ := v.lead id seat (v.graph s.1) (v.graph s'.1)
            · rfl
            · exact hdescend item outcome s'
          | _ => rfl
        · exact hdescend _ _ s
    · cases item with
      | value _ => rfl
      | node id =>
        rw [descend_node, descend_node]
        show forget (match v.checkItems (v.graph s.1) id with
          | .error fault => .error fault s
          | .ok () => (v.recording.walkFrom fuel id (v.firstIndex (v.graph s.1) id) >>= settle resume) s) = _
        split
        · rfl
        · refine forget_bind (hfrom _ _ s) fun outcome s' => ?_
          cases outcome <;> rfl
    · rw [walkFrom_eq, walkFrom_eq]
      split
      · rfl
      · show forget (match ((v.graph s.1).items id)[index.toNat]? with
          | none => .ok .next s
          | some child =>
            (v.recording.walk fuel child (some ⟨index.toNat, id⟩) >>= v.recording.goOn fuel id index.toNat) s) = _
        split
        · rfl
        · refine forget_bind (hwalk _ _ s) fun outcome s' => ?_
          cases outcome with
          | stop => rfl
          | _ => exact hfrom _ _ s'

/-- A visit that keeps a record is the visit. -/
theorem visit_recording (fuel : Nat) (id : NodeId) (s : σ × List Call) :
    forget (v.recording.visit fuel id s) = v.visit fuel id s.1 := by
  have hwalk := (v.forget_walk fuel).1 (.node id) none s
  unfold visit
  show forget ((match v.test.check with
    | .error fault => throw fault
    | .ok () => v.recording.walk fuel (.node id) none >>= fun _ => return () :
      EStateM Fault (σ × List Call) Unit) s) = _
  cases v.test.check with
  | error fault => rfl
  | ok _ => exact forget_bind hwalk fun _ _ => rfl

end Forget

end Visitor

end MarkdownTree
