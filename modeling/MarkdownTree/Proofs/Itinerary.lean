import MarkdownTree.Proofs.Depth
import MarkdownTree.Proofs.Recording

/-!
# The way of a visit

A visit whose callback edits nothing calls it on the nodes of the tree in document order, or in that of the tree with all
rows of children turned round; it leaves out what is below a node that was to be skipped, and what follows one after
which it was to stop (`Visitor.visit_itinerary`).  A node may stand in several places, so the way is told in terms of
places (`Occurrence`), each with the indices that lead to it.
-/

namespace MarkdownTree

/-- A place in which a node stands in a tree: the indices that lead there from the top, the node, and its seat. -/
structure Occurrence where
  path : List Nat
  node : NodeId
  seat : Option Seat

/-- The members of a row up to the first that is selected, which is still there. -/
def through {α : Type} (p : α → Bool) : List α → List α
  | [] => []
  | x :: xs => if p x then [x] else x :: through p xs

namespace Graph

/-- The places right below a place. -/
def below (g : Graph) (o : Occurrence) : List Occurrence :=
  (seated (g.items o.node)).map fun child => ⟨o.path ++ [child.1], child.2, some ⟨child.1, o.node⟩⟩

/-- The places in the tree at a place, in document order or with every row turned round, without those below places that
are passed over; no more than so many layers are looked at. -/
def occurrencesTo (g : Graph) (backwards : Bool) (omits : Occurrence → Bool) : Nat → Occurrence → List Occurrence
  | 0, _ => []
  | depth + 1, o =>
    o :: if omits o then [] else (orient backwards (g.below o)).flatMap (occurrencesTo g backwards omits depth)

/-- The places in a tree to which a visit comes with a node that passes a test, when it is told so at each: what is below
a place that is to be skipped is left out, and so is all that follows one that is the last. -/
def itinerary (g : Graph) (test : NodeTest) (backwards : Bool) (reply : List Nat → Reply) (depth : Nat) (top : NodeId) :
    List Occurrence :=
  let matching := fun o : Occurrence => g.passes test o.node
  through (fun o => reply o.path = .stop)
    ((g.occurrencesTo backwards (fun o => matching o && reply o.path = .skip) depth ⟨[], top, none⟩).filter matching)

end Graph

/-! ### Rows up to a member -/

section Through

variable {α : Type} {p q : α → Bool} {xs ys : List α}

private theorem through_append : through p (xs ++ ys) = if xs.any p then through p xs else xs ++ through p ys := by
  induction xs with
  | nil => rfl
  | cons x xs ih =>
    rw [List.cons_append, through, through, ih, List.any_cons]
    cases p x with
    | true => rfl
    | false =>
      simp only [Bool.false_eq_true, if_false, Bool.false_or]
      split <;> rfl

private theorem through_of_not_any (h : xs.any p = false) : through p xs = xs := by
  have happend : through p (xs ++ []) = xs ++ through p [] := by rw [through_append, h]; rfl
  rwa [List.append_nil, through, List.append_nil] at happend

private theorem through_congr (h : ∀ x ∈ xs, p x = q x) : through p xs = through q xs := by
  induction xs with
  | nil => rfl
  | cons x xs ih =>
    obtain ⟨hx, hxs⟩ := List.forall_mem_cons.1 h
    rw [through, through, hx, ih hxs]

private theorem through_eq_of_forall (h : ∀ x ∈ through p xs, p x = false) :
    through p xs = xs := by
  induction xs with
  | nil => rfl
  | cons x xs ih =>
    rw [through] at h ⊢
    cases hx : p x with
    | true =>
      rw [hx, if_pos rfl] at h
      exact absurd hx (Bool.not_eq_true _ ▸ h x (List.mem_singleton_self x))
    | false =>
      rw [hx, if_neg Bool.false_ne_true] at h
      rw [if_neg Bool.false_ne_true, ih fun y hy => h y (List.mem_cons_of_mem _ hy)]

private theorem through_subset : through p xs ⊆ xs := by
  induction xs with
  | nil => exact List.Subset.refl _
  | cons x xs ih =>
    rw [through]
    split
    · exact List.cons_subset_cons x (List.nil_subset xs)
    · exact List.cons_subset_cons x ih

end Through

namespace Graph

variable {g : Graph} {test : NodeTest} {backwards : Bool} {reply reply' : List Nat → Reply} {depth : Nat}
  {o o' : Occurrence}

/-! ### Places -/

private theorem below_eq (h : g.EndsWithin depth o.node) :
    g.below o = (g.childIds o.node).zipIdx.map fun child => ⟨o.path ++ [child.2], child.1, some ⟨child.2, o.node⟩⟩ := by
  have hseated (ids : List NodeId) : seated (ids.map .node) = ids.zipIdx.map fun child => (child.2, child.1) := by
    rw [seated, List.zipIdx_map, List.filterMap_map, ← List.filterMap_eq_map]
    rfl
  rw [below, h.items, hseated, List.map_map]
  rfl

private theorem length_below (h : g.EndsWithin depth o.node) : (g.below o).length = (g.items o.node).length := by
  rw [below_eq h, List.length_map, List.length_zipIdx, h.items, List.length_map]

private theorem below_getElem? (h : g.EndsWithin depth o.node) (i : Nat) :
    (g.below o)[i]? = (g.childIds o.node)[i]?.map fun child => ⟨o.path ++ [i], child, some ⟨i, o.node⟩⟩ := by
  rw [below_eq h, List.getElem?_map, List.getElem?_zipIdx, Option.map_map, Nat.zero_add]
  rfl

private theorem mem_below (h : o' ∈ g.below o) : ∃ i, o'.path = o.path ++ [i] ∧ o'.seat = some ⟨i, o.node⟩ ∧
    (g.items o.node)[i]? = some (.node o'.node) := by
  obtain ⟨⟨i, child⟩, hchild, rfl⟩ := List.mem_map.1 h
  exact ⟨i, rfl, rfl, mem_seated.1 hchild⟩

/-- What the itinerary is made of: the places to which a visit comes if it is not told to stop. -/
def course (g : Graph) (test : NodeTest) (backwards : Bool) (reply : List Nat → Reply) (depth : Nat) (o : Occurrence) :
    List Occurrence :=
  (g.occurrencesTo backwards (fun o => g.passes test o.node && reply o.path = .skip) depth o).filter
    fun o => g.passes test o.node

private theorem course_succ : g.course test backwards reply (depth + 1) o =
    (if g.passes test o.node then [o] else []) ++
      if g.passes test o.node ∧ reply o.path = .skip then []
      else (orient backwards (g.below o)).flatMap (g.course test backwards reply depth) := by
  unfold course
  rw [occurrencesTo, List.filter_cons]
  cases g.passes test o.node <;> by_cases hskip : reply o.path = .skip <;>
    simp [hskip, List.filter_flatMap]

private theorem orient_subset {α : Type} {xs : List α} : orient backwards xs ⊆ xs := by
  intro x hx
  cases backwards with
  | false => exact hx
  | true => exact List.mem_reverse.1 hx

/-- The places of a course lie at or below where it begins. -/
private theorem prefix_of_mem_course : ∀ {depth : Nat} {o o' : Occurrence}, o' ∈ g.course test backwards reply depth o →
    o.path <+: o'.path
  | 0, _, _, h => absurd h List.not_mem_nil
  | depth + 1, o, o', h => by
    rw [course_succ] at h
    rcases List.mem_append.1 h with h | h
    · split at h
      · exact List.mem_singleton.1 h ▸ List.prefix_refl _
      · exact absurd h List.not_mem_nil
    · split at h
      · exact absurd h List.not_mem_nil
      · obtain ⟨child, hchild, h⟩ := List.mem_flatMap.1 h
        obtain ⟨i, hi, -⟩ := mem_below (orient_subset hchild)
        have hgrows := prefix_of_mem_course h
        rw [hi] at hgrows
        exact (List.prefix_append _ _).trans hgrows

/-- A course depends on the replies at the places at and below where it begins. -/
private theorem course_congr : ∀ {depth : Nat} {o : Occurrence}, (∀ path, o.path <+: path → reply path = reply' path) →
    g.course test backwards reply depth o = g.course test backwards reply' depth o
  | 0, _, _ => rfl
  | depth + 1, o, h => by
    have hbelow : ∀ child ∈ orient backwards (g.below o),
        g.course test backwards reply depth child = g.course test backwards reply' depth child := by
      intro child hchild
      obtain ⟨i, hi, -⟩ := mem_below (orient_subset hchild)
      refine course_congr fun path hpath => h path ?_
      rw [hi] at hpath
      exact (List.prefix_append _ _).trans hpath
    rw [course_succ, course_succ, h o.path (List.prefix_refl _), List.flatMap_congr hbelow]

private theorem map_node_below (h : g.EndsWithin depth o.node) :
    (g.below o).map Occurrence.node = g.childIds o.node := by
  rw [below_eq h, List.map_map]
  exact List.zipIdx_map_fst 0 _

/-- A course on which nothing is passed over has the nodes of the tree that pass the test, in document order. -/
private theorem map_node_course : ∀ {depth : Nat} {o : Occurrence}, g.EndsWithin depth o.node →
    (∀ o' ∈ g.course test false reply depth o, reply o'.path ≠ .skip) →
    (g.course test false reply depth o).map Occurrence.node = (g.preorderTo depth o.node).filter (g.passes test)
  | 0, _, hends, _ => hends.elim
  | depth + 1, o, hends, hreply => by
    rw [course_succ] at hreply ⊢
    have hskip : ¬(g.passes test o.node = true ∧ reply o.path = .skip) := by
      rintro ⟨hpass, hskip⟩
      exact hreply o (List.mem_append_left _ (by rw [if_pos hpass]; exact List.mem_singleton_self o)) hskip
    rw [if_neg hskip] at hreply ⊢
    have hrow (row : List Occurrence) (hrow : row ⊆ g.below o) : (row.flatMap (g.course test false reply depth)).map
        Occurrence.node = ((row.map Occurrence.node).flatMap (g.preorderTo depth)).filter (g.passes test) := by
      rw [List.map_flatMap, List.filter_flatMap, List.flatMap_map]
      refine List.flatMap_congr fun child hchild => map_node_course ?_ fun o' ho' => ?_
      · exact hends.child (map_node_below hends ▸ List.mem_map_of_mem (hrow hchild))
      · exact hreply o' (List.mem_append_right _ (List.mem_flatMap.2 ⟨child, hrow hchild, ho'⟩))
    have hbelow := hrow (g.below o) (List.Subset.refl _)
    rw [map_node_below hends] at hbelow
    rw [List.map_append, preorderTo, List.filter_cons]
    refine Eq.trans (congrArg _ hbelow) ?_
    split <;> rfl

/-- The places right below a place have paths of their own. -/
private theorem pairwise_below (h : g.EndsWithin depth o.node) : (g.below o).Pairwise fun p q => p.path ≠ q.path := by
  rw [List.pairwise_iff_getElem]
  intro i j hi hj hij
  have hpath {k : Nat} (hk : k < (g.below o).length) : (g.below o)[k].path = o.path ++ [k] := by
    have hget := below_getElem? h k
    rw [List.getElem?_eq_getElem hk] at hget
    obtain ⟨child, -, hchild⟩ := Option.map_eq_some_iff.1 hget.symm
    rw [← hchild]
  rw [hpath hi, hpath hj]
  intro hsame
  have hindex := List.append_cancel_left hsame
  rw [List.singleton_inj] at hindex
  exact absurd hindex hij.ne

private theorem pairwise_ahead (h : g.EndsWithin depth o.node) {index : Int} :
    (ahead backwards (g.below o) index).Pairwise fun p q => p.path ≠ q.path := by
  refine List.Pairwise.sublist Visitor.ahead_sublist ?_
  cases backwards with
  | false => exact pairwise_below h
  | true => exact List.pairwise_reverse.2 ((pairwise_below h).imp Ne.symm)

end Graph

/-! ### Visits that edit nothing -/

namespace Visitor

variable {σ : Type} {v : Visitor σ} {g : Graph} {depth : Nat} {s s' : σ} {reply reply' : List Nat → Reply}
  {places : List Occurrence} {o : Occurrence}

/-- The callback returns, leaves the nodes as they are, and names no sibling to go on with. -/
def OnlyLooks (v : Visitor σ) (g : Graph) : Prop :=
  ∀ id seat s, v.graph s = g → ∃ reply s', v.callback id seat s = .ok reply s' ∧ v.graph s' = g ∧
    reply ∈ [Reply.proceed, .skip, .stop]

/-- The visit is to stop at a place. -/
def stops (reply : List Nat → Reply) (o : Occurrence) : Bool :=
  reply o.path = .stop

/-- The call at a place. -/
def look (g : Graph) (reply : List Nat → Reply) (o : Occurrence) : Call :=
  ⟨o.node, o.seat, g, g, .ok (reply o.path)⟩

/-- With enough fuel the work leads from one state to the other and calls back at some places in their order, up to the
first at which it is to stop. -/
def Makes (g : Graph) (work : Nat → EStateM Fault (σ × List Call) Outcome) (s : σ) (reply : List Nat → Reply)
    (places : List Occurrence) (s' : σ) : Prop :=
  ∃ enough, ∀ fuel, enough ≤ fuel → ∀ log, work fuel (s, log) =
    .ok (if places.any (stops reply) then .stop else .next)
      (s', log ++ (through (stops reply) places).map (look g reply))

namespace Makes

variable {work work' : Nat → EStateM Fault (σ × List Call) Outcome}

private theorem any_stops_congr (hreply : ∀ o ∈ places, reply o.path = reply' o.path) :
    places.any (stops reply) = places.any (stops reply') := by
  refine Bool.eq_iff_iff.2 ?_
  simp only [List.any_eq_true]
  exact exists_congr fun o => and_congr_right fun ho => by rw [stops, stops, hreply o ho]

private theorem congr (h : Makes g work s reply places s') (hreply : ∀ o ∈ places, reply o.path = reply' o.path) :
    Makes g work s reply' places s' := by
  have hstops : ∀ o ∈ places, stops reply o = stops reply' o := fun o ho => by rw [stops, stops, hreply o ho]
  have hlook : (through (stops reply) places).map (look g reply) =
      (through (stops reply') places).map (look g reply') := by
    rw [through_congr hstops]
    exact List.map_congr_left fun o ho => by rw [look, look, hreply o (through_subset ho)]
  rw [Makes, any_stops_congr hreply, hlook] at h
  exact h

variable {head tail : Nat → EStateM Fault (σ × List Call) Outcome} {rest : List Occurrence} {middle : σ}

/-- Work that takes a unit of fuel more makes the same calls. -/
private theorem succ (h : Makes g head s reply places s')
    (hwork : ∀ fuel log outcome t, outcome = .stop ∨ outcome = .next → head fuel (s, log) = .ok outcome t →
      work (fuel + 1) (s, log) = .ok outcome t) : Makes g work s reply places s' := by
  obtain ⟨enough, h⟩ := h
  refine ⟨enough + 1, fun fuel hfuel log => ?_⟩
  obtain ⟨fuel, rfl⟩ := Nat.exists_eq_add_of_le' (Nat.le_of_add_left_le hfuel)
  refine hwork fuel log _ _ ?_ (h fuel (by omega) log)
  split
  · exact .inl rfl
  · exact .inr rfl

/-- Work that begins with a call makes that call before the others. -/
private theorem cons (h : Makes g tail middle reply rest s') (hnext : stops reply o = false)
    (hwork : ∀ fuel log outcome t, outcome = .stop ∨ outcome = .next →
      tail fuel (middle, log ++ [look g reply o]) = .ok outcome t → work (fuel + 1) (s, log) = .ok outcome t) :
    Makes g work s reply (o :: rest) s' := by
  obtain ⟨enough, h⟩ := h
  refine ⟨enough + 1, fun fuel hfuel log => ?_⟩
  obtain ⟨fuel, rfl⟩ := Nat.exists_eq_add_of_le' (Nat.le_of_add_left_le hfuel)
  have htail := h fuel (by omega) (log ++ [look g reply o])
  rw [List.append_assoc, List.singleton_append, ← List.map_cons] at htail
  rw [List.any_cons, hnext, Bool.false_or, through, hnext, if_neg Bool.false_ne_true]
  refine hwork fuel log _ _ ?_ htail
  split
  · exact .inl rfl
  · exact .inr rfl

/-- Work that is no more than a call makes it. -/
private theorem single (hwork : ∀ fuel log, work (fuel + 1) (s, log) =
    .ok (if stops reply o then .stop else .next) (s', log ++ [look g reply o]))
    (hrest : stops reply o = false → rest = []) : Makes g work s reply (o :: rest) s' := by
  refine ⟨1, fun fuel hfuel log => ?_⟩
  obtain ⟨fuel, rfl⟩ := Nat.exists_eq_add_of_le' hfuel
  rw [hwork fuel log, List.any_cons, through]
  cases hstop : stops reply o with
  | true => rfl
  | false =>
    rw [hrest hstop]
    rfl

/-- Work that stops during its first part makes no call after that. -/
private theorem append_stop (h : Makes g head s reply places s') (hany : places.any (stops reply) = true)
    (hwork : ∀ fuel log t, head fuel (s, log) = .ok .stop t → work (fuel + 1) (s, log) = .ok .stop t) :
    Makes g work s reply (places ++ rest) s' := by
  obtain ⟨enough, h⟩ := h
  refine ⟨enough + 1, fun fuel hfuel log => ?_⟩
  obtain ⟨fuel, rfl⟩ := Nat.exists_eq_add_of_le' (Nat.le_of_add_left_le hfuel)
  have hhead := h fuel (by omega) log
  rw [hany, if_pos rfl] at hhead
  rw [hwork fuel log _ hhead, List.any_append, hany, through_append, hany]
  rfl

/-- Work that does not stop during its first part makes the calls of the second after those of the first. -/
private theorem append_next (hhead : Makes g head s reply places middle) (hany : places.any (stops reply) = false)
    (htail : Makes g tail middle reply rest s')
    (hwork : ∀ fuel log t, head fuel (s, log) = .ok .next t → work (fuel + 1) (s, log) = tail fuel t) :
    Makes g work s reply (places ++ rest) s' := by
  obtain ⟨enough, hhead⟩ := hhead
  obtain ⟨enough', htail⟩ := htail
  refine ⟨max enough enough' + 1, fun fuel hfuel log => ?_⟩
  obtain ⟨fuel, rfl⟩ := Nat.exists_eq_add_of_le' (Nat.le_of_add_left_le hfuel)
  have h := hhead fuel (by omega) log
  rw [hany, if_neg Bool.false_ne_true, through_of_not_any hany] at h
  rw [hwork fuel log _ h, htail fuel (by omega), List.any_append, hany, through_append, hany, Bool.false_or,
    if_neg Bool.false_ne_true, List.map_append, List.append_assoc]

end Makes

/-! ### One row and one node -/

/-- The walk of a place whose tree has at most so many layers makes the calls of its course. -/
def Goes (v : Visitor σ) (g : Graph) (depth : Nat) (o : Occurrence) : Prop :=
  ∀ s, v.graph s = g → ∃ reply s', v.graph s' = g ∧
    Makes g (fun fuel => v.recording.walk fuel (.node o.node) o.seat) s reply
      (g.course v.test v.backwards reply depth o) s'

namespace Makes

variable {work : Nat → EStateM Fault (σ × List Call) Outcome} {row : List Occurrence}

/-- Of the replies, those at and below the places of a row make a difference to its courses. -/
private theorem row_congr (h : Makes g work s reply (row.flatMap (g.course v.test v.backwards reply depth)) s')
    (hreply : ∀ o ∈ row, ∀ path, o.path <+: path → reply path = reply' path) :
    Makes g work s reply' (row.flatMap (g.course v.test v.backwards reply' depth)) s' := by
  rw [← List.flatMap_congr fun o ho => Graph.course_congr (hreply o ho)]
  refine h.congr fun o ho => ?_
  obtain ⟨top, htop, ho⟩ := List.mem_flatMap.1 ho
  exact hreply top htop _ (Graph.prefix_of_mem_course ho)

private theorem course_congr (h : Makes g work s reply (g.course v.test v.backwards reply depth o) s')
    (hreply : ∀ path, o.path <+: path → reply path = reply' path) :
    Makes g work s reply' (g.course v.test v.backwards reply' depth o) s' := by
  rw [← List.flatMap_singleton (g.course v.test v.backwards reply depth)] at h
  rw [← List.flatMap_singleton (g.course v.test v.backwards reply' depth)]
  exact h.row_congr fun o' ho' => List.mem_singleton.1 ho' ▸ hreply

end Makes

/-- A path at or below a place that is reached by an index has that index in it. -/
private theorem getElem?_of_isPrefix {path path' : List Nat} {i : Nat} (h : path ++ [i] <+: path') :
    path'[path.length]? = some i := by
  obtain ⟨rest, rfl⟩ := h
  rw [List.append_assoc, List.getElem?_append_right (Nat.le_refl _), Nat.sub_self]
  rfl

/-- Replies below the places of a row are told apart by the indices that lead there. -/
private theorem exists_both (first second : List Nat → Reply) {path : List Nat} {i : Nat} {row : List Occurrence}
    (hrow : ∀ next ∈ row, ∃ j, next.path = path ++ [j] ∧ j ≠ i) :
    ∃ both : List Nat → Reply, (∀ path', path ++ [i] <+: path' → first path' = both path') ∧
      ∀ next ∈ row, ∀ path', next.path <+: path' → second path' = both path' := by
  refine ⟨fun path' => if path'[path.length]? = some i then first path' else second path',
    fun path' hpath => (if_pos (getElem?_of_isPrefix hpath)).symm, fun next hnext path' hpath => ?_⟩
  obtain ⟨j, hj, hne⟩ := hrow next hnext
  rw [hj] at hpath
  refine (if_neg fun hindex => hne ?_).symm
  rw [getElem?_of_isPrefix hpath] at hindex
  exact Option.some.inj hindex

private theorem makes_row (hends : g.EndsWithin (depth + 1) o.node) (hgoes : ∀ child ∈ g.below o, Goes v g depth child)
    {row : List Occurrence} : ∀ {index : Int} {s : σ}, v.graph s = g → ahead v.backwards (g.below o) index = row →
      ∃ reply s', v.graph s' = g ∧ Makes g (fun fuel => v.recording.walkFrom fuel o.node index) s reply
        (row.flatMap (g.course v.test v.backwards reply depth)) s' := by
  induction row with
  | nil =>
    intro index s hs hrow
    refine ⟨fun _ => .proceed, s, hs, 1, fun fuel hfuel log => ?_⟩
    obtain ⟨fuel, rfl⟩ := Nat.exists_eq_add_of_le' hfuel
    have hend : index < 0 ∨ ((v.graph s).items o.node)[index.toNat]? = none := by
      rw [hs, List.getElem?_eq_none_iff, ← Graph.length_below hends, ← List.getElem?_eq_none_iff]
      exact v.ahead_eq_nil_iff.1 hrow
    refine (v.walkFrom_nil (t := (s, log)) hend).trans ?_
    rw [List.flatMap_nil, through, List.map_nil, List.append_nil]
    rfl
  | cons child row ih =>
    intro index s hs hrow
    obtain ⟨hindex, hchild, hrest⟩ := v.ahead_eq_cons_iff.1 hrow
    have hplace := hchild
    rw [Graph.below_getElem? hends] at hplace
    obtain ⟨id, hid, hchildEq⟩ := Option.map_eq_some_iff.1 hplace
    obtain ⟨first, middle, hmiddle, hhead⟩ := hgoes child (List.mem_of_getElem? hchild) s hs
    have hwalk (fuel : Nat) (log : List Call) : v.recording.walkFrom (fuel + 1) o.node index (s, log) =
        (v.recording.walk fuel (.node child.node) child.seat >>= v.recording.goOn fuel o.node index.toNat)
          (s, log) := by
      subst hchildEq
      refine v.walkFrom_cons hindex ?_
      show ((v.graph s).items o.node)[index.toNat]? = _
      rw [hs, hends.items, List.getElem?_map, hid]
      rfl
    have hchildPath : child.path = o.path ++ [index.toNat] := by rw [← hchildEq]
    simp only [List.flatMap_cons]
    cases hany : (g.course v.test v.backwards first depth child).any (stops first) with
    | true =>
      exact ⟨first, middle, hmiddle,
        hhead.append_stop hany fun fuel log t h => (hwalk fuel log).trans (bind_eq_of_ok h)⟩
    | false =>
      obtain ⟨second, s', hs', htail⟩ := ih hmiddle hrest
      have hindices : ∀ next ∈ row, ∃ j, next.path = o.path ++ [j] ∧ j ≠ index.toNat := by
        intro next hnext
        have hapart : (ahead v.backwards (g.below o) index).Pairwise fun p q => p.path ≠ q.path :=
          Graph.pairwise_ahead hends
        rw [hrow] at hapart
        obtain ⟨j, hj, -⟩ := Graph.mem_below (Graph.orient_subset
          (ahead_sublist.subset (hrow ▸ List.mem_cons_of_mem _ hnext)))
        refine ⟨j, hj, fun hsame => (List.pairwise_cons.1 hapart).1 next hnext ?_⟩
        rw [hchildPath, hj, hsame]
      obtain ⟨both, hfirst, hsecond⟩ := exists_both first second hindices
      rw [← hchildPath] at hfirst
      have hnone : (g.course v.test v.backwards both depth child).any (stops both) = false := by
        rw [← Graph.course_congr hfirst, ← hany]
        exact Makes.any_stops_congr fun o ho => (hfirst _ (Graph.prefix_of_mem_course ho)).symm
      exact ⟨both, s', hs', (hhead.course_congr hfirst).append_next hnone (htail.row_congr hsecond) fun fuel log t h =>
        (hwalk fuel log).trans (bind_eq_of_ok h)⟩

private theorem makes_descend (hends : g.EndsWithin (depth + 1) o.node)
    (hgoes : ∀ child ∈ g.below o, Goes v g depth child)
    (hs : v.graph s = g) : ∃ reply s', v.graph s' = g ∧
      Makes g (fun fuel => v.recording.descend fuel (.node o.node) .next) s reply
        ((orient v.backwards (g.below o)).flatMap (g.course v.test v.backwards reply depth)) s' := by
  obtain ⟨reply, s', hs', h⟩ := makes_row hends hgoes hs (v.ahead_firstIndex (Graph.length_below hends))
  refine ⟨reply, s', hs', h.succ fun fuel log outcome t houtcome hrow => ?_⟩
  subst hs
  refine (v.descend_row (t := (s, log)) hends.stray?_eq_none).trans ((bind_eq_of_ok hrow).trans ?_)
  rcases houtcome with rfl | rfl <;> rfl

/-- A visit of the tree at a place makes the calls of its course. -/
private theorem goes (hlooks : v.OnlyLooks g) : ∀ {depth : Nat} {o : Occurrence}, g.EndsWithin depth o.node →
    (∀ p, o.seat = some p → (g.items p.parent)[p.index]? = some (.node o.node)) → Goes v g depth o
  | 0, _, hends, _ => hends.elim
  | depth + 1, o, hends, hseat => by
    intro s hs
    have hgoes : ∀ child ∈ g.below o, Goes v g depth child := by
      intro child hchild
      obtain ⟨i, -, hseat, hitem⟩ := Graph.mem_below hchild
      have hmem : child.node ∈ g.childIds o.node := by
        have hitem := List.mem_of_getElem? hitem
        rw [hends.items] at hitem
        obtain ⟨id, hid, hsame⟩ := List.mem_map.1 hitem
        exact Item.node.inj hsame ▸ hid
      refine goes hlooks (hends.child hmem) fun p hp => ?_
      cases hseat.symm.trans hp
      exact hitem
    simp only [Graph.course_succ]
    by_cases hpass : g.passes v.test o.node = true
    · obtain ⟨answer, middle, hcall, hmiddle, hanswer⟩ := hlooks o.node o.seat s hs
      have hwalk (fuel : Nat) (log : List Call) : v.recording.walk (fuel + 1) (.node o.node) o.seat (s, log) =
          v.recording.comply fuel o.node o.seat g answer (middle, log ++ [⟨o.node, o.seat, g, g, .ok answer⟩]) := by
        subst hs
        rw [v.walk_matched (t := (s, log)) hpass hcall, hmiddle]
      simp only [List.mem_cons, List.not_mem_nil, or_false] at hanswer
      rcases hanswer with rfl | rfl | rfl
      · obtain ⟨reply, s', hs', h⟩ := makes_descend hends hgoes hmiddle
        let reply' : List Nat → Reply := fun path => if path = o.path then .proceed else reply path
        have hproceed : reply' o.path = .proceed := if_pos rfl
        have hbelow : ∀ child ∈ orient v.backwards (g.below o), ∀ path, child.path <+: path →
            reply path = reply' path := by
          intro child hchild path hpath
          obtain ⟨i, hi, -⟩ := Graph.mem_below (Graph.orient_subset hchild)
          refine (if_neg fun hsame => ?_).symm
          have hlength := hpath.length_le
          rw [hi, hsame, List.length_append] at hlength
          exact absurd hlength (Nat.not_succ_le_self _)
        refine ⟨reply', s', hs', ?_⟩
        rw [if_pos hpass, hproceed, if_neg (by simp)]
        refine (h.row_congr hbelow).cons (by rw [stops, hproceed]; rfl) fun fuel log outcome t _ hrow => ?_
        rw [look, hproceed] at hrow
        rw [hwalk]
        show v.recording.follow fuel (v.recording.lead o.node o.seat g (v.graph middle)) _ = _
        rw [hmiddle, v.recording.lead_of_same hseat]
        exact hrow
      · refine ⟨fun _ => .skip, middle, hmiddle, ?_⟩
        rw [if_pos hpass, if_pos ⟨hpass, rfl⟩]
        exact .single (fun fuel log => hwalk fuel log) fun _ => rfl
      · refine ⟨fun _ => .stop, middle, hmiddle, ?_⟩
        rw [if_pos hpass]
        exact .single (fun fuel log => hwalk fuel log) fun hstop => absurd hstop (by simp [stops])
    · obtain ⟨reply, s', hs', h⟩ := makes_descend hends hgoes hs
      refine ⟨reply, s', hs', ?_⟩
      rw [if_neg hpass, if_neg fun hskip => hpass hskip.1, List.nil_append]
      refine h.succ fun fuel log outcome t _ hrow => ?_
      subst hs
      exact (v.walk_unmatched (t := (s, log)) hpass).trans hrow

end Visitor

/-! ### Visits that come to every node -/

namespace Visitor

variable {σ : Type} {v : Visitor σ} {depth : Nat} {s : σ} {top : NodeId}

/-- A visit whose callback only looks at the nodes comes to its end. It calls back on the places of the itinerary that
its answers make, each with its seat, and if all of them are to go on, these are the nodes that come off a stack. -/
theorem visit_itinerary (htest : v.test.check = .ok ()) (hends : (v.graph s).EndsWithin depth top)
    (hlooks : v.OnlyLooks (v.graph s)) : ∃ reply s' enough, ∀ fuel, enough ≤ fuel →
      v.visit fuel top s = .ok () s' ∧
      v.calls fuel top s =
        ((v.graph s).itinerary v.test v.backwards reply depth top).map (look (v.graph s) reply) ∧
      (v.backwards = false → (∀ call ∈ v.calls fuel top s, call.answer = .ok .proceed) →
        (v.graph s).iterate v.test top = .ok ((v.calls fuel top s).map Call.node)) := by
  obtain ⟨reply, s', -, enough, h⟩ :=
    goes hlooks (o := ⟨[], top, none⟩) hends (fun _ hseat => nomatch hseat) s rfl
  refine ⟨reply, s', enough, fun fuel hfuel => ?_⟩
  have hvisit : v.recording.visit fuel top (s, []) = .ok ()
      (s', ((v.graph s).itinerary v.test v.backwards reply depth top).map (look (v.graph s) reply)) := by
    have htest' : v.recording.test.check = .ok () := htest
    exact (visit_eq htest').trans (bind_eq_of_ok (h fuel hfuel []))
  have hcalls : v.calls fuel top s =
      ((v.graph s).itinerary v.test v.backwards reply depth top).map (look (v.graph s) reply) := by
    rw [calls, hvisit]
    rfl
  refine ⟨?_, hcalls, fun hforwards hproceed => ?_⟩
  · have hforget := v.visit_recording fuel top (s, [])
    rw [hvisit] at hforget
    exact hforget.symm
  · have hgo : ∀ o ∈ (v.graph s).itinerary v.test v.backwards reply depth top, reply o.path = .proceed := by
      intro o ho
      have hanswer := hproceed (look (v.graph s) reply o) (hcalls ▸ List.mem_map_of_mem ho)
      exact Except.ok.inj hanswer
    have hall : (v.graph s).itinerary v.test v.backwards reply depth top =
        (v.graph s).course v.test v.backwards reply depth ⟨[], top, none⟩ :=
      through_eq_of_forall fun o ho => by rw [hgo o ho]; rfl
    rw [hends.iterate_eq, hcalls, List.map_map, Graph.select, hends.preorder_eq_preorderTo]
    rw [hall, hforwards] at hgo ⊢
    have hnodes := Graph.map_node_course hends fun o ho => by rw [hgo o ho]; exact Reply.noConfusion
    exact congrArg Except.ok hnodes.symm

/-- A heading and a paragraph that share a text. -/
def echo : Graph :=
  ⟨#[⟨.root, [], .items [.node 1, .node 2], none, .empty⟩,
    ⟨.heading, [("depth", .int 1)], .items [.node 3], none, .empty⟩,
    ⟨.paragraph, [], .items [.node 3, .node 4], none, .empty⟩,
    ⟨.text, [("value", .text "a")], .none, none, .empty⟩,
    ⟨.emphasis, [], .items [.node 3], none, .empty⟩]⟩

/-- A visit from the end that passes over what is below emphasis, and stops at its fourth call. -/
def browser : Visitor (Graph × Nat) where
  graph := Prod.fst
  test := .any
  backwards := true
  callback id _ s :=
    .ok (if s.1.kind? id = some .emphasis then .skip else if s.2 = 3 then .stop else .proceed) (s.1, s.2 + 1)

private theorem endsWithin_echo : echo.EndsWithin 4 0 := by
  have htext (depth : Nat) : echo.EndsWithin (depth + 1) 3 :=
    ⟨_, rfl, rfl, fun h => absurd h Bool.false_ne_true, fun _ h => absurd h List.not_mem_nil⟩
  refine ⟨_, rfl, rfl, fun _ => rfl, List.forall_mem_cons.2 ⟨?_, List.forall_mem_singleton.2 ?_⟩⟩
  · exact ⟨_, rfl, rfl, fun _ => rfl, List.forall_mem_singleton.2 (htext 1)⟩
  · refine ⟨_, rfl, rfl, fun _ => rfl, List.forall_mem_cons.2 ⟨htext 1, List.forall_mem_singleton.2 ?_⟩⟩
    exact ⟨_, rfl, rfl, fun _ => rfl, List.forall_mem_singleton.2 (htext 0)⟩

theorem visit_itinerary_echo : ∃ reply s' enough, ∀ fuel, enough ≤ fuel →
    browser.visit fuel 0 (echo, 0) = .ok () s' ∧
    browser.calls fuel 0 (echo, 0) = (echo.itinerary .any true reply 4 0).map (look echo reply) := by
  have hlooks : browser.OnlyLooks echo := by
    rintro id seat ⟨g, n⟩ rfl
    refine ⟨_, _, rfl, rfl, ?_⟩
    split
    · decide
    · split <;> decide
  obtain ⟨reply, s', enough, h⟩ := visit_itinerary (v := browser) (s := (echo, 0)) rfl endsWithin_echo hlooks
  exact ⟨reply, s', enough, fun fuel hfuel => ⟨(h fuel hfuel).1, (h fuel hfuel).2.1⟩⟩

example : (browser.calls 10 0 (echo, 0)).map (fun call => (call.node, call.seat)) =
    [(0, none), (2, some ⟨1, 0⟩), (4, some ⟨1, 2⟩), (3, some ⟨0, 2⟩)] := by
  decide +kernel

end Visitor

end MarkdownTree
