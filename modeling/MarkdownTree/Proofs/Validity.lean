import Mathlib.Data.List.Perm.Subperm
import MarkdownTree.Graph.Validity

/-!
# What validation guarantees

The rules of trees are stated of all nodes that stand in a tree, wherever they are looked for (`Graph.Shaped`,
`Graph.Laid`).  Validation finds nothing exactly when they hold (`Graph.issues_exact`): it looks into every node once, so
it comes to all of them, and a node that it meets again stands in two places.  A strict check fails where a lenient one
finds something, with the first of it.
-/

namespace MarkdownTree

namespace Graph

variable (g : Graph)

/-! ### The rules -/

/-- The indices of the path lead from the first node to the second, whose cell is `c`. -/
inductive Stands : NodeId → List Nat → NodeId → Cell → Prop where
  | here {id : NodeId} {c : Cell} (h : g.cell? id = some c) : Stands id [] id c
  | inside {top : NodeId} {d : Cell} {i : Nat} {child : NodeId} {path : List Nat} {id : NodeId} {c : Cell}
      (h : g.cell? top = some d) (hchild : d.items[i]? = some (.node child)) (hbelow : Stands child path id c) :
      Stands top (i :: path) id c

/-- What a container can hold at an index. -/
@[mk_iff]
structure Holds (container : Kind) (index : Nat) (child : Kind) : Prop where
  frontMatter : child = .frontMatter → container = .root ∧ index = 0
  items : container = .list → child = .listItem
  blocks : container ∈ [Kind.root, .blockQuote, .listItem] → child.isBlock = true ∧ child ≠ .listItem
  inlines : container ∈ [Kind.heading, .paragraph, .emphasis, .strong, .link] → child.isBlock = false
  links : container = .link → child ≠ .link

/-- The node has a value and children where its kind asks for them, and can hold its children. -/
@[mk_iff]
structure Proper (c : Cell) : Prop where
  value : if c.kind.isLiteral then ∃ s, c.field? "value" = some (.text s) else c.field? "value" = none
  children : if c.kind.isParent then ∃ xs, c.children = .items xs ∧ ∀ x ∈ xs, ∃ child, x = .node child
    else c.children = .none
  holds : ∀ {i child d}, c.items[i]? = some (.node child) → g.cell? child = some d → Holds c.kind i d.kind

/-- The positions of a node's children in their order; some children have none. -/
def childPositions (c : Cell) : List Position :=
  c.childIds.filterMap fun id => (g.cell? id).bind Cell.position

/-- The positions of a node's children lie within its own, and none begins before the one before it has ended. -/
@[mk_iff]
structure Nests (c : Cell) : Prop where
  inside : ∀ q, c.position = some q → ∀ p ∈ g.childPositions c,
    q.start.offset ≤ p.start.offset ∧ p.stop.offset ≤ q.stop.offset
  apart : (g.childPositions c).IsChain fun p q => p.stop.offset ≤ q.start.offset

/-- The rules on what stands where in the tree below a node: a root at the top and nowhere else, and no node in two
places. -/
structure Shaped (top : NodeId) : Prop where
  root : ∀ {path id c}, g.Stands top path id c → (c.kind = .root ↔ path = [])
  proper : ∀ {path id c}, g.Stands top path id c → g.Proper c
  once : ∀ {p q id c d}, g.Stands top p id c → g.Stands top q id d → p = q

/-- The rules on the positions in the tree below a node. -/
def Laid (top : NodeId) : Prop :=
  ∀ {path id c}, g.Stands top path id c → g.Nests c

/-! ### One node -/

private theorem valueFault?_eq_none {c : Cell} : valueFault? c = none ↔
    if c.kind.isLiteral then ∃ s, c.field? "value" = some (.text s) else c.field? "value" = none := by
  unfold valueFault?
  split
  · split <;> simp_all
  · cases c.field? "value" <;> simp

private theorem slotFault?_eq_none {c : Cell} : slotFault? c = none ↔
    if c.kind.isParent then ∃ xs, c.children = .items xs else c.children = .none := by
  unfold slotFault?
  split
  · split <;> simp_all
  · split <;> simp_all

private theorem containmentFault?_eq_none {k l : Kind} {i : Nat} : containmentFault? k l i = none ↔ Holds k i l := by
  rw [holds_iff, containmentFault?]
  by_cases hfront : l = .frontMatter ∧ ¬(k = .root ∧ i = 0)
  · rw [if_pos (by simpa [imp_iff_not_or] using hfront)]
    simp [hfront]
  · rw [if_neg (by simpa [imp_iff_not_or] using hfront)]
    cases k with
    | root | link => cases hblock : l.isBlock <;> simp_all [holdsBlocks, holdsInlines]
    | _ => simp_all [holdsBlocks, holdsInlines]

theorem mem_seated {items : List Item} {i : Nat} {id : NodeId} :
    (i, id) ∈ seated items ↔ items[i]? = some (.node id) := by
  simp only [seated, List.mem_filterMap, Prod.exists, List.mem_zipIdx_iff_getElem?]
  constructor
  · rintro ⟨item, index, hitem, h⟩
    cases item <;> simp_all [Item.id?]
  · exact fun h => ⟨_, _, h, rfl⟩

private theorem containmentIssues_eq_nil {c : Cell} {path : List Nat} : g.containmentIssues c path c.items = [] ↔
    ∀ {i child d}, c.items[i]? = some (.node child) → g.cell? child = some d → Holds c.kind i d.kind := by
  simp only [containmentIssues, List.filterMap_eq_nil_iff, Prod.forall, mem_seated, kind?]
  constructor
  · intro h i child d hchild hd
    rw [← containmentFault?_eq_none, Option.eq_none_iff_forall_ne_some]
    simpa [hd] using h i child hchild
  · intro h i child hchild
    cases hd : g.cell? child with
    | none => rfl
    | some d => simp [containmentFault?_eq_none.2 (h hchild hd)]

private theorem map_snd_seated (items : List Item) : (seated items).map (·.2) = items.filterMap Item.id? := by
  unfold seated
  generalize 0 = k
  induction items generalizing k with
  | nil => rfl
  | cons item items ih =>
    cases item with
    | node id => exact congrArg (id :: ·) (ih (k + 1))
    | value v => exact ih (k + 1)

/-- The positions of seated children that have one. -/
private def positionsOf (children : List (Nat × NodeId)) : List Position :=
  children.filterMap fun child => (g.cell? child.2).bind Cell.position

private theorem positionsOf_seated {c : Cell} : g.positionsOf (seated c.items) = g.childPositions c := by
  rw [childPositions, Cell.childIds, ← map_snd_seated, List.filterMap_map]
  rfl

private theorem positionIssues_eq_nil_iff {c : Cell} {path : List Nat} {previous : Option Position}
    {children : List (Nat × NodeId)} : g.positionIssues c path previous children = [] ↔
      (∀ q, c.position = some q → ∀ p ∈ g.positionsOf children,
        q.start.offset ≤ p.start.offset ∧ p.stop.offset ≤ q.stop.offset) ∧
      (previous.toList ++ g.positionsOf children).IsChain fun p q => p.stop.offset ≤ q.start.offset := by
  induction children generalizing previous with
  | nil => cases previous <;> simp [positionIssues, positionsOf]
  | cons child children ih =>
    obtain ⟨index, id⟩ := child
    unfold positionIssues
    cases hd : g.cell? id with
    | none => simp [ih, positionsOf, hd]
    | some d =>
      cases hp : d.position with
      | none => simp [ih, positionsOf, hd, hp]
      | some p =>
        have hcons : g.positionsOf ((index, id) :: children) = p :: g.positionsOf children := by
          simp [positionsOf, hd, hp]
        -- A position that overlaps the one before it begins before that one has ended.
        have hearly : ∀ q : Position, (q.overlaps p = true ∨ p.start.offset < q.stop.offset) ↔
            p.start.offset < q.stop.offset := by
          intro q
          simp only [Position.overlaps, Bool.and_eq_true, decide_eq_true_eq]
          omega
        cases hc : c.position <;> cases previous <;>
          simp [hp, hc, ih, hcons, hearly, Position.contains, List.isChain_cons_cons, and_assoc, and_left_comm]

private theorem positionIssues_eq_nil {c : Cell} {path : List Nat} :
    g.positionIssues c path none (seated c.items) = [] ↔ g.Nests c := by
  rw [positionIssues_eq_nil_iff, positionsOf_seated, nests_iff]
  rfl

/-- A node that stands at the end of a path keeps the rules by itself and with its children. -/
@[mk_iff]
structure Keeps (positions : Bool) (path : List Nat) (c : Cell) : Prop where
  root : c.kind = .root → path = []
  proper : g.Proper c
  nests : positions = true → g.Nests c

private theorem children_iff {c : Cell} :
    ((if c.kind.isParent then ∃ xs, c.children = .items xs else c.children = .none) ∧
        ∀ x ∈ c.items, ∃ child, x = .node child) ↔
      if c.kind.isParent then ∃ xs, c.children = .items xs ∧ ∀ x ∈ xs, ∃ child, x = .node child
      else c.children = .none := by
  cases hparent : c.kind.isParent
  · simp [Cell.items, hparent]
  · cases hchildren : c.children <;> simp [Cell.items, hparent, hchildren, Slot.toList]

/-- A node has no issues of its own, and only nodes for children, exactly when it keeps the rules. -/
private theorem ownIssues_eq_nil {positions : Bool} {c : Cell} {id : NodeId} {path : List Nat} :
    (g.ownIssues positions c id path = [] ∧ ∀ x ∈ c.items, ∃ child, x = .node child) ↔
      g.Keeps positions path c := by
  have hcontainment : g.containmentIssues c path c.items = [] ↔ _ := g.containmentIssues_eq_nil
  have hpositions : g.positionIssues c path none (seated c.items) = [] ↔ _ := g.positionIssues_eq_nil
  rw [keeps_iff, proper_iff, ← children_iff, ← valueFault?_eq_none, ← slotFault?_eq_none, ← hcontainment, ← hpositions]
  cases positions <;> simp [ownIssues, and_assoc, and_comm, and_left_comm]

end Graph

/-! ### Lenient and strict checks -/

namespace Check

/-- The two forms of a check find the same: where the lenient one finds nothing the strict one ends as it does, and where
it finds something the strict one fails with the first of it. -/
def Agree (lenient strict : Check Unit) : Prop :=
  ∀ f, ∃ found seen, lenient.run f = .ok () ⟨f.issues ++ found, seen⟩ ∧
    match found with
    | [] => strict.run f = lenient.run f
    | issue :: _ => ∃ f', strict.run f = .error (.value (.invalidTree issue.line)) f'

private theorem agree_pure : Agree (pure ()) (pure ()) :=
  fun f => ⟨[], f.seen, by simp, rfl⟩

private theorem agree_mark (id : NodeId) : Agree (mark id) (mark id) :=
  fun f => ⟨[], id :: f.seen, by simp [mark], rfl⟩

private theorem agree_note (issue : Issue) : Agree (note false issue) (note true issue) :=
  fun f => ⟨[issue], f.seen, rfl, _, rfl⟩

private theorem agree_seq {x y x' y' : Check Unit} (hx : Agree x x') (hy : Agree y y') :
    Agree (do x; y) (do x'; y') := by
  intro f
  obtain ⟨found, seen, hrun, hstrict⟩ := hx f
  obtain ⟨more, seen', hrun', hstrict'⟩ := hy ⟨f.issues ++ found, seen⟩
  refine ⟨found ++ more, seen', by simp [EStateM.run_bind, hrun, hrun', List.append_assoc], ?_⟩
  cases found with
  | nil =>
    rw [hrun] at hstrict
    cases more <;> simp_all [EStateM.run_bind]
  | cons issue found =>
    obtain ⟨f', hf'⟩ := hstrict
    exact ⟨f', by simp [EStateM.run_bind, hf']⟩

/-- A step that depends on what has been found. -/
private theorem agree_get {k k' : Findings → Check Unit} (h : ∀ f, Agree (k f) (k' f)) :
    Agree (do k (← get)) (do k' (← get)) :=
  fun f => h f f

private theorem agree_forM {ι : Type} {x x' : ι → Check Unit} (h : ∀ i, Agree (x i) (x' i)) (is : List ι) :
    Agree (is.forM x) (is.forM x') := by
  induction is with
  | nil => exact agree_pure
  | cons i is ih => exact agree_seq (h i) ih

end Check

namespace Graph

variable (g : Graph)

private theorem agree_check (positions : Bool) (fuel : Nat) (id : NodeId) (path : List Nat) :
    Check.Agree (g.check false positions fuel id path) (g.check true positions fuel id path) := by
  induction fuel generalizing id path with
  | zero => exact Check.agree_pure
  | succ fuel ih =>
    unfold check
    cases g.cell? id with
    | none => exact Check.agree_pure
    | some c =>
      refine Check.agree_get fun f => ?_
      split
      · exact Check.agree_note _
      · refine Check.agree_seq (Check.agree_mark id) (Check.agree_seq (Check.agree_forM Check.agree_note _) ?_)
        refine Check.agree_forM (fun p => ?_) _
        obtain ⟨child | v, index⟩ := p
        · exact ih child _
        · exact Check.agree_note _

private theorem agree_validate (positions : Bool) (top : NodeId) :
    Check.Agree (g.validate false positions top) (g.validate true positions top) := by
  refine Check.agree_seq ?_ (g.agree_check positions _ top [])
  unfold checkTop
  split
  · exact Check.agree_pure
  · exact Check.agree_pure
  · exact Check.agree_note _

/-- A strict check fails exactly where a lenient one finds something, with the first of it. -/
private theorem requireValid_eq (positions : Bool) (top : NodeId) : g.requireValid positions top =
    match g.issues positions top with
    | [] => .ok ()
    | issue :: _ => .error (.value (.invalidTree issue.line)) := by
  obtain ⟨found, seen, hrun, hstrict⟩ := g.agree_validate positions top {}
  rw [requireValid, issues, hrun]
  cases found with
  | nil => simp [hstrict, hrun]
  | cons issue found =>
    obtain ⟨f', hf'⟩ := hstrict
    simp [hf']

end Graph

/-! ### Checks that succeed -/

namespace Check

variable {f f' : Findings}

private theorem seq_eq_ok {x y : Check Unit} :
    (do x; y : Check Unit).run f = .ok () f' ↔ ∃ f₁, x.run f = .ok () f₁ ∧ y.run f₁ = .ok () f' := by
  rw [EStateM.run_bind]
  cases x.run f <;> simp

private theorem note_ne_ok (issue : Issue) : (note true issue).run f ≠ .ok () f' := by
  simp [note, EStateM.run_bind]

private theorem forM_note_eq_ok {issues : List Issue} :
    (forM issues (note true)).run f = .ok () f' ↔ issues = [] ∧ f' = f := by
  cases issues with
  | nil => simp [eq_comm]
  | cons issue issues =>
    refine iff_of_false (fun h => ?_) (by simp)
    rw [List.forM_cons, seq_eq_ok] at h
    obtain ⟨f₁, hnote, -⟩ := h
    exact note_ne_ok issue hnote

private theorem mark_eq_ok {id : NodeId} : (mark id).run f = .ok () f' ↔ f' = { f with seen := id :: f.seen } := by
  simp [mark, eq_comm]

end Check

namespace Graph

variable (g : Graph)

/-- A check of a node succeeds where the node has not been looked into before and keeps the rules, and the check of its
children succeeds. -/
private theorem check_eq_ok {positions : Bool} {fuel : Nat} {id : NodeId} {path : List Nat} {f f' : Findings} {c : Cell}
    (hc : g.cell? id = some c) : (g.check true positions (fuel + 1) id path).run f = .ok () f' ↔
      id ∉ f.seen ∧ g.ownIssues positions c id path = [] ∧
        (c.items.zipIdx.forM (checkItem true c id path (g.check true positions fuel))).run
          { f with seen := id :: f.seen } = .ok () f' := by
  have hrun : (g.check true positions (fuel + 1) id path).run f =
      if f.seen.contains id then
        (Check.note true ⟨"Node instance " ++ c.kind.name ++ " appears more than once in the tree", id, path⟩).run f
      else (do
        Check.mark id
        (g.ownIssues positions c id path).forM (Check.note true)
        c.items.zipIdx.forM (checkItem true c id path (g.check true positions fuel))).run f := by
    rw [check, hc]
    show (if f.seen.contains id then _ else _ : Check Unit).run f = _
    split <;> rfl
  rw [hrun]
  by_cases hseen : id ∈ f.seen
  · simp [hseen, Check.note_ne_ok]
  · simp [hseen, Check.seq_eq_ok, Check.mark_eq_ok, Check.forM_note_eq_ok, -EStateM.run_bind]

private theorem checkItem_eq_ok {c : Cell} {id : NodeId} {path : List Nat} {below : NodeId → List Nat → Check Unit}
    {x : Item}
    {i : Nat} {f f' : Findings} : (checkItem true c id path below (x, i)).run f = .ok () f' ↔
      ∃ child, x = .node child ∧ (below child (path ++ [i])).run f = .ok () f' := by
  cases x with
  | node child => simp [checkItem]
  | value v => simp [checkItem, Check.note_ne_ok]

/-! ### Searches

A check that succeeds is a search through the tree that comes to no node twice.  What it comes to is told for the tree
below a node and for those below a row of children alike, so the nodes and their paths are a parameter. -/

/-- The nodes that have been looked into are different nodes, and more can be looked into than are left. -/
structure Room (fuel : Nat) (seen : List NodeId) : Prop where
  nodup : seen.Nodup
  lt_size : ∀ n ∈ seen, n < g.size
  size_lt : g.size < fuel + seen.length

/-- The path leads to the node by way of one of some items with their indices. -/
def StandsAmong (items : List (Item × Nat)) (path : List Nat) (id : NodeId) (c : Cell) : Prop :=
  ∃ child i rest, (Item.node child, i) ∈ items ∧ path = i :: rest ∧ g.Stands child rest id c

/-- A search comes to all nodes at some paths, to each of them once, and finds that they keep the rules. -/
structure Searched (positions : Bool) (path : List Nat) (At : List Nat → NodeId → Cell → Prop)
    (seen seen' : List NodeId) : Prop where
  suffix : seen <:+ seen'
  nodup : seen'.Nodup
  lt_size : ∀ n ∈ seen', n < g.size
  keeps : ∀ {q n c}, At q n c → g.Keeps positions (path ++ q) c
  mem : ∀ {q n c}, At q n c → n ∈ seen'
  notMem : ∀ {q n c}, At q n c → n ∉ seen
  once : ∀ {q r n c d}, At q n c → At r n d → q = r

variable {g} {positions : Bool}

theorem Room.fuel_pos {fuel : Nat} {seen : List NodeId} (h : g.Room fuel seen) : 0 < fuel := by
  have hle : seen.length ≤ (List.range g.size).length :=
    (h.nodup.subperm fun n hn => List.mem_range.2 (h.lt_size n hn)).length_le
  have := h.size_lt
  rw [List.length_range] at hle
  omega

theorem lt_size_of_cell? {id : NodeId} {c : Cell} (h : g.cell? id = some c) : id < g.size :=
  (Array.getElem?_eq_some_iff.1 h).1

theorem Room.mark {fuel : Nat} {seen : List NodeId} {id : NodeId} {c : Cell} (h : g.Room (fuel + 1) seen)
    (hc : g.cell? id = some c) (hid : id ∉ seen) : g.Room fuel (id :: seen) where
  nodup := List.nodup_cons.2 ⟨hid, h.nodup⟩
  lt_size := List.forall_mem_cons.2 ⟨lt_size_of_cell? hc, h.lt_size⟩
  size_lt := by have := h.size_lt; simp only [List.length_cons]; omega

private theorem Searched.room {path : List Nat} {At : List Nat → NodeId → Cell → Prop} {seen seen' : List NodeId}
    {fuel : Nat}
    (h : g.Searched positions path At seen seen') (hroom : g.Room fuel seen) : g.Room fuel seen' where
  nodup := h.nodup
  lt_size := h.lt_size
  size_lt := by have := h.suffix.length_le; have := hroom.size_lt; omega

private theorem stands_iff {top : NodeId} {d : Cell} (hd : g.cell? top = some d) {path : List Nat} {id : NodeId}
    {c : Cell} :
    g.Stands top path id c ↔ (path = [] ∧ id = top ∧ c = d) ∨ g.StandsAmong d.items.zipIdx path id c := by
  constructor
  · rintro (hc | ⟨hd', hchild, hbelow⟩)
    · exact .inl ⟨rfl, rfl, Option.some.inj (hc.symm.trans hd)⟩
    · cases hd'.symm.trans hd
      exact .inr ⟨_, _, _, List.mk_mem_zipIdx_iff_getElem?.2 hchild, rfl, hbelow⟩
  · rintro (⟨rfl, rfl, rfl⟩ | ⟨child, i, rest, hchild, rfl, hbelow⟩)
    · exact .here hd
    · exact .inside hd (List.mk_mem_zipIdx_iff_getElem?.1 hchild) hbelow

private theorem not_stands_of_cell? {top : NodeId} (h : g.cell? top = none) {path : List Nat} {id : NodeId} {c : Cell} :
    ¬g.Stands top path id c := by
  rintro (hc | ⟨hd, -, -⟩) <;> simp_all

private theorem standsAmong_cons {child : NodeId} {i : Nat} {items : List (Item × Nat)} {path : List Nat} {id : NodeId}
    {c : Cell} : g.StandsAmong ((.node child, i) :: items) path id c ↔
      (∃ rest, path = i :: rest ∧ g.Stands child rest id c) ∨ g.StandsAmong items path id c := by
  constructor
  · rintro ⟨child', i', rest, hmem, rfl, hbelow⟩
    rcases List.mem_cons.1 hmem with h | hmem
    · cases h
      exact .inl ⟨rest, rfl, hbelow⟩
    · exact .inr ⟨child', i', rest, hmem, rfl, hbelow⟩
  · rintro (⟨rest, rfl, hbelow⟩ | ⟨child', i', rest, hmem, rfl, hbelow⟩)
    · exact ⟨child, i, rest, List.mem_cons_self, rfl, hbelow⟩
    · exact ⟨child', i', rest, List.mem_cons_of_mem _ hmem, rfl, hbelow⟩

/-- A search through a row of children, given what a search through the tree below each of them is. -/
private theorem searched_row {fuel : Nat} {path : List Nat} {c : Cell} {id : NodeId}
    (ih : ∀ {child i f f'}, g.Room fuel f.seen → (g.check true positions fuel child (path ++ [i])).run f = .ok () f' →
      g.Searched positions (path ++ [i]) (g.Stands child) f.seen f'.seen)
    {items : List (Item × Nat)} {f f' : Findings} (hroom : g.Room fuel f.seen)
    (h : (forM items (checkItem true c id path (g.check true positions fuel))).run f = .ok () f') :
    (∀ x ∈ items, ∃ child, x.1 = .node child) ∧
      g.Searched positions path (g.StandsAmong items) f.seen f'.seen := by
  induction items generalizing f with
  | nil =>
    cases h
    refine ⟨by simp, List.suffix_rfl, hroom.nodup, hroom.lt_size, ?_, ?_, ?_, ?_⟩ <;> simp [StandsAmong]
  | cons x items ihitems =>
    obtain ⟨x, i⟩ := x
    rw [List.forM_cons, Check.seq_eq_ok] at h
    obtain ⟨f₁, hx, hitems⟩ := h
    obtain ⟨child, rfl, hchild⟩ := checkItem_eq_ok.1 hx
    have hfirst := ih hroom hchild
    obtain ⟨hnodes, hrest⟩ := ihitems (hfirst.room hroom) hitems
    refine ⟨List.forall_mem_cons.2 ⟨⟨child, rfl⟩, hnodes⟩, hfirst.suffix.trans hrest.suffix, hrest.nodup, hrest.lt_size,
      ?_, ?_, ?_, ?_⟩ <;> simp only [standsAmong_cons]
    · rintro q n d (⟨rest, rfl, hq⟩ | hq)
      · simpa using hfirst.keeps hq
      · exact hrest.keeps hq
    · rintro q n d (⟨rest, rfl, hq⟩ | hq)
      · exact hrest.suffix.subset (hfirst.mem hq)
      · exact hrest.mem hq
    · rintro q n d (⟨rest, rfl, hq⟩ | hq)
      · exact hfirst.notMem hq
      · exact fun hn => hrest.notMem hq (hfirst.suffix.subset hn)
    · rintro q r n d e (⟨rest, rfl, hq⟩ | hq) (⟨rest', rfl, hr⟩ | hr)
      · rw [hfirst.once hq hr]
      · exact absurd (hfirst.mem hq) (hrest.notMem hr)
      · exact absurd (hfirst.mem hr) (hrest.notMem hq)
      · exact hrest.once hq hr

/-- A check that succeeds is a search. -/
private theorem searched_check {fuel : Nat} {id : NodeId} {path : List Nat} {f f' : Findings}
    (hroom : g.Room fuel f.seen)
    (h : (g.check true positions fuel id path).run f = .ok () f') :
    g.Searched positions path (g.Stands id) f.seen f'.seen := by
  induction fuel generalizing id path f f' with
  | zero => exact absurd hroom.fuel_pos (Nat.lt_irrefl 0)
  | succ fuel ih =>
    cases hc : g.cell? id with
    | none =>
      have hf : f' = f := by
        rw [check, hc] at h
        cases h
        rfl
      subst hf
      exact ⟨List.suffix_rfl, hroom.nodup, hroom.lt_size, fun hq => absurd hq (not_stands_of_cell? hc),
        fun hq => absurd hq (not_stands_of_cell? hc), fun hq => absurd hq (not_stands_of_cell? hc),
        fun hq => absurd hq (not_stands_of_cell? hc)⟩
    | some c =>
      obtain ⟨hid, hown, hitems⟩ := (g.check_eq_ok hc).1 h
      obtain ⟨hnodes, hrow⟩ := searched_row (fun {_ _ _ _} => ih) (hroom.mark hc hid) hitems
      have hkeeps : g.Keeps positions path c := g.ownIssues_eq_nil.1
        ⟨hown, fun x hx => by
          obtain ⟨i, hi⟩ := List.mem_iff_getElem?.1 hx
          exact hnodes (x, i) (List.mk_mem_zipIdx_iff_getElem?.2 hi)⟩
      refine ⟨(List.suffix_cons id f.seen).trans hrow.suffix, hrow.nodup, hrow.lt_size, ?_, ?_, ?_, ?_⟩ <;>
        simp only [stands_iff hc]
      · rintro q n d (⟨rfl, rfl, rfl⟩ | hq)
        · simpa using hkeeps
        · exact hrow.keeps hq
      · rintro q n d (⟨rfl, rfl, rfl⟩ | hq)
        · exact hrow.suffix.subset List.mem_cons_self
        · exact hrow.mem hq
      · rintro q n d (⟨rfl, rfl, rfl⟩ | hq)
        · exact hid
        · exact fun hn => hrow.notMem hq (List.mem_cons_of_mem _ hn)
      · rintro q r n d e (⟨rfl, rfl, rfl⟩ | hq) (⟨rfl, hn, rfl⟩ | hr)
        · rfl
        · exact absurd List.mem_cons_self (hrow.notMem hr)
        · exact absurd (hn ▸ List.mem_cons_self) (hrow.notMem hq)
        · exact hrow.once hq hr

/-- All nodes at some paths keep the rules, have not been looked into, and stand at one of the paths only. -/
structure Searchable (g : Graph) (positions : Bool) (path : List Nat) (At : List Nat → NodeId → Cell → Prop)
    (seen : List NodeId) : Prop where
  keeps : ∀ {q n c}, At q n c → g.Keeps positions (path ++ q) c
  notMem : ∀ {q n c}, At q n c → n ∉ seen
  once : ∀ {q r n c d}, At q n c → At r n d → q = r

/-- A check succeeds, and has looked into nothing but what had been looked into and the nodes at some paths. -/
def Succeeds (At : List Nat → NodeId → Cell → Prop) (f : Findings) (x : Check Unit) : Prop :=
  ∃ f', x.run f = .ok () f' ∧ ∀ n ∈ f'.seen, n ∈ f.seen ∨ ∃ q c, At q n c

/-- The check of a row of children that can be searched, given that the tree below each of them is checked so. -/
private theorem succeeds_row {fuel : Nat} {path : List Nat} {c : Cell} {id : NodeId}
    (ih : ∀ {child i f}, g.Searchable positions (path ++ [i]) (g.Stands child) f.seen →
      Succeeds (g.Stands child) f (g.check true positions fuel child (path ++ [i])))
    {items : List (Item × Nat)} (hnodes : ∀ x ∈ items, ∃ child, x.1 = .node child)
    (hnodup : (items.map Prod.snd).Nodup) {f : Findings}
    (hitems : g.Searchable positions path (g.StandsAmong items) f.seen) :
    Succeeds (g.StandsAmong items) f (forM items (checkItem true c id path (g.check true positions fuel))) := by
  induction items generalizing f with
  | nil => exact ⟨f, rfl, fun n hn => .inl hn⟩
  | cons x items ihitems =>
    obtain ⟨x, i⟩ := x
    obtain ⟨⟨child, rfl⟩, hrest⟩ := List.forall_mem_cons.1 hnodes
    obtain ⟨hi, hnodup⟩ := List.nodup_cons.1 hnodup
    have hchild : ∀ {q n d}, g.Stands child q n d → g.StandsAmong ((.node child, i) :: items) (i :: q) n d :=
      fun hq => standsAmong_cons.2 (.inl ⟨_, rfl, hq⟩)
    have hother : ∀ {q n d}, g.StandsAmong items q n d → g.StandsAmong ((.node child, i) :: items) q n d :=
      fun hq => standsAmong_cons.2 (.inr hq)
    have hfirst : g.Searchable positions (path ++ [i]) (g.Stands child) f.seen :=
      ⟨fun hq => by simpa using hitems.keeps (hchild hq), fun hq => hitems.notMem (hchild hq),
        fun hq hr => (List.cons.inj (hitems.once (hchild hq) (hchild hr))).2⟩
    obtain ⟨f₁, hrun, hseen⟩ := ih hfirst
    -- A node below a later child that the first one has led to would stand in two places.
    have hnotMem : ∀ {q n d}, g.StandsAmong items q n d → n ∉ f₁.seen := by
      intro q n d hq hn
      rcases hseen n hn with hn | ⟨r, e, hr⟩
      · exact hitems.notMem (hother hq) hn
      · have hqr := hitems.once (hchild hr) (hother hq)
        obtain ⟨child', j, rest, hmem, rfl, -⟩ := hq
        cases (List.cons.inj hqr).1
        exact hi (List.mem_map.2 ⟨_, hmem, rfl⟩)
    obtain ⟨f₂, hrun', hseen'⟩ := ihitems hrest hnodup
      ⟨fun hq => hitems.keeps (hother hq), hnotMem, fun hq hr => hitems.once (hother hq) (hother hr)⟩
    refine ⟨f₂, ?_, fun n hn => ?_⟩
    · rw [List.forM_cons, Check.seq_eq_ok]
      exact ⟨f₁, checkItem_eq_ok.2 ⟨child, rfl, hrun⟩, hrun'⟩
    · rcases hseen' n hn with hn | ⟨q, d, hq⟩
      · exact (hseen n hn).imp_right fun ⟨q, d, hq⟩ => ⟨_, d, hchild hq⟩
      · exact .inr ⟨q, d, hother hq⟩

/-- The check of a tree that can be searched succeeds. -/
private theorem succeeds_check {fuel : Nat} {id : NodeId} {path : List Nat} {f : Findings}
    (hid : g.Searchable positions path (g.Stands id) f.seen) :
    Succeeds (g.Stands id) f (g.check true positions fuel id path) := by
  induction fuel generalizing id path f with
  | zero => exact ⟨f, rfl, fun n hn => .inl hn⟩
  | succ fuel ih =>
    cases hc : g.cell? id with
    | none => exact ⟨f, by rw [check, hc]; rfl, fun n hn => .inl hn⟩
    | some c =>
      have hhere : g.Stands id [] id c := .here hc
      have hbelow : ∀ {q n d}, g.StandsAmong c.items.zipIdx q n d → g.Stands id q n d :=
        fun hq => (stands_iff hc).2 (.inr hq)
      obtain ⟨hown, hnodes⟩ := g.ownIssues_eq_nil.2 (by simpa using hid.keeps hhere)
      -- A node does not stand below itself.
      have hnotMem : ∀ {q n d}, g.StandsAmong c.items.zipIdx q n d → n ∉ id :: f.seen := by
        intro q n d hq hn
        rcases List.mem_cons.1 hn with rfl | hn
        · have hq' := hid.once hhere (hbelow hq)
          obtain ⟨child, j, rest, -, rfl, -⟩ := hq
          cases hq'
        · exact hid.notMem (hbelow hq) hn
      obtain ⟨f', hrun, hseen⟩ := succeeds_row (f := { f with seen := id :: f.seen }) (fun {_ _ _} => ih)
        (fun x hx => hnodes x.1 (List.fst_mem_of_mem_zipIdx hx)) (by simp [List.nodup_range'])
        ⟨fun hq => hid.keeps (hbelow hq), hnotMem, fun hq hr => hid.once (hbelow hq) (hbelow hr)⟩
      refine ⟨f', (g.check_eq_ok hc).2 ⟨hid.notMem hhere, hown, hrun⟩, fun n hn => ?_⟩
      rcases hseen n hn with hn | ⟨q, d, hq⟩
      · rcases List.mem_cons.1 hn with rfl | hn
        · exact .inr ⟨[], c, hhere⟩
        · exact .inl hn
      · exact .inr ⟨q, d, hbelow hq⟩

/-! ### The whole tree -/

private theorem checkTop_eq_ok {top : NodeId} {f f' : Findings} : (g.checkTop true top).run f = .ok () f' ↔
    (∀ c, g.cell? top = some c → c.kind = .root) ∧ f = f' := by
  unfold checkTop kind?
  cases g.cell? top with
  | none => simp
  | some c => cases hkind : c.kind <;> simp [hkind, Check.note_ne_ok]

/-- The rules hold where the top is a root and the tree can be searched. -/
private theorem shaped_and_laid_iff {top : NodeId} : (g.Shaped top ∧ (positions = true → g.Laid top)) ↔
    (∀ c, g.cell? top = some c → c.kind = .root) ∧ g.Searchable positions [] (g.Stands top) [] := by
  constructor
  · rintro ⟨hshape, hlaid⟩
    exact ⟨fun c hc => (hshape.root (.here hc)).2 rfl,
      ⟨fun hq => ⟨(hshape.root hq).1, hshape.proper hq, fun h => hlaid h hq⟩, fun _ => List.not_mem_nil, hshape.once⟩⟩
  · rintro ⟨htop, htree⟩
    refine ⟨⟨fun {path id c} hq => ⟨(htree.keeps hq).root, ?_⟩, fun hq => (htree.keeps hq).proper, htree.once⟩,
      fun h _ _ _ hq => (htree.keeps hq).nests h⟩
    rintro rfl
    cases hq with
    | here hc => exact htop c hc

private theorem validate_eq_ok {top : NodeId} : (∃ f, (g.validate true positions top).run {} = .ok () f) ↔
    g.Shaped top ∧ (positions = true → g.Laid top) := by
  simp only [validate, Check.seq_eq_ok, checkTop_eq_ok, shaped_and_laid_iff]
  constructor
  · rintro ⟨f, f₁, ⟨htop, rfl⟩, h⟩
    have hfound := searched_check (g := g) ⟨List.nodup_nil, by simp, by simp⟩ h
    exact ⟨htop, hfound.keeps, fun _ => List.not_mem_nil, hfound.once⟩
  · rintro ⟨htop, htree⟩
    obtain ⟨f, hrun, -⟩ := succeeds_check (f := {}) htree
    exact ⟨f, {}, ⟨htop, rfl⟩, hrun⟩

theorem issues_eq_nil_iff {top : NodeId} :
    g.issues positions top = [] ↔ g.Shaped top ∧ (positions = true → g.Laid top) := by
  have hstrict := g.requireValid_eq positions top
  rw [← validate_eq_ok]
  unfold requireValid at hstrict
  cases hrun : (g.validate true positions top).run {} <;> cases hissues : g.issues positions top <;>
    simp_all

/-- Validation finds nothing exactly where the rules hold, and a strict check fails otherwise, with the first that it
finds. -/
theorem issues_exact (g : Graph) (positions : Bool) (top : NodeId) :
    (g.issues positions top = [] ↔ g.Shaped top ∧ (positions = true → g.Laid top)) ∧
      g.requireValid positions top =
        match g.issues positions top with
        | [] => .ok ()
        | issue :: _ => .error (.value (.invalidTree issue.line)) :=
  ⟨issues_eq_nil_iff, g.requireValid_eq positions top⟩

end Graph

end MarkdownTree
