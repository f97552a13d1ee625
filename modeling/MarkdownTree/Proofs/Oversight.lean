import MarkdownTree.Proofs.Validity

/-!
# What validation overlooks

Validation looks at the value of a node and at no other field: it finds the same in a tree and in its outline, where
nothing else is left (`Graph.issues_outline`).  And it compares a link with its own children only.  So a tree without
issues can have a heading of any depth, and links below links wherever emphasis comes between them, but nowhere else
(`Graph.issues_overlooks`).
-/

namespace MarkdownTree

/-! ### Outlines -/

/-- A node with its value as its only field. -/
def Cell.outline (c : Cell) : Cell :=
  { c with fields := (c.field? "value").toList.map fun v => ("value", v) }

namespace Cell

variable (c : Cell)

@[simp] theorem outline_kind : c.outline.kind = c.kind := rfl

@[simp] theorem outline_children : c.outline.children = c.children := rfl

@[simp] theorem outline_position : c.outline.position = c.position := rfl

@[simp] theorem outline_items : c.outline.items = c.items := rfl

@[simp] theorem field?_outline : c.outline.field? "value" = c.field? "value" := by
  show List.lookup "value" ((c.field? "value").toList.map fun v => ("value", v)) = _
  cases c.field? "value" <;> simp

private theorem outline_setField {name : String} (hname : name ≠ "value") (v : Value) :
    (c.setField name v).outline = c.outline := by
  have hvalue : (c.setField name v).field? "value" = c.field? "value" := by
    unfold setField
    split
    · exact lookup_setField_ne hname.symm v c.fields
    · have hother : ("value" == name) = false := beq_false_of_ne hname.symm
      simp [field?, List.lookup_append, List.lookup_cons, hother]
  unfold outline
  rw [hvalue]
  unfold setField
  split <;> rfl

end Cell

namespace Graph

variable (g : Graph)

/-- The graph with the outlines of its nodes. -/
def outline : Graph :=
  ⟨g.cells.map Cell.outline⟩

@[simp] theorem cell?_outline (id : NodeId) : g.outline.cell? id = (g.cell? id).map Cell.outline := by
  simp [cell?, outline]

@[simp] theorem size_outline : g.outline.size = g.size := by
  simp [size, outline]

@[simp] theorem kind?_outline (id : NodeId) : g.outline.kind? id = g.kind? id := by
  simp [kind?, Function.comp_def]

@[simp] theorem valueFault?_outline (c : Cell) : valueFault? c.outline = valueFault? c := by
  simp [valueFault?]

@[simp] theorem slotFault?_outline (c : Cell) : slotFault? c.outline = slotFault? c := rfl

@[simp] theorem containmentIssues_outline (c : Cell) (path : List Nat) (items : List Item) :
    g.outline.containmentIssues c.outline path items = g.containmentIssues c path items := by
  simp [containmentIssues]

@[simp] theorem positionIssues_outline (c : Cell) (path : List Nat) (previous : Option Position)
    (children : List (Nat × NodeId)) :
    g.outline.positionIssues c.outline path previous children = g.positionIssues c path previous children := by
  induction children generalizing previous with
  | nil => rfl
  | cons child children ih =>
    unfold positionIssues
    cases hd : g.cell? child.2 with
    | none => simp [hd, ih]
    | some d =>
      cases hp : d.position with
      | none => simp [hd, hp, ih]
      | some p =>
        simp only [cell?_outline, hd, Option.map_some, Cell.outline_position, hp, ih]
        rfl

@[simp] theorem ownIssues_outline (positions : Bool) (c : Cell) (id : NodeId) (path : List Nat) :
    g.outline.ownIssues positions c.outline id path = g.ownIssues positions c id path := by
  simp [ownIssues]

private theorem check_outline (strict positions : Bool) (fuel : Nat) :
    g.outline.check strict positions fuel = g.check strict positions fuel := by
  induction fuel with
  | zero => rfl
  | succ fuel ih =>
    funext id path
    rw [check, check, cell?_outline]
    cases g.cell? id with
    | none => rfl
    | some c =>
      have hitem : checkItem strict c.outline = checkItem strict c := by
        funext id path below x
        obtain ⟨child | v, i⟩ := x <;> rfl
      dsimp only [Option.map_some]
      rw [ownIssues_outline, hitem, ih]
      rfl

/-- Validation finds the same in a tree and in its outline. -/
theorem issues_outline (positions : Bool) (top : NodeId) : g.outline.issues positions top = g.issues positions top := by
  have hvalidate : g.outline.validate false positions top = g.validate false positions top := by
    rw [validate, validate, checkTop, checkTop, kind?_outline, size_outline, check_outline]
  rw [issues, issues, hvalidate]

private theorem outline_setField (id : NodeId) {name : String} (hname : name ≠ "value") (v : Value) :
    (g.modify id fun c => c.setField name v).outline = g.outline := by
  refine congrArg Graph.mk (Array.ext_getElem? fun i => ?_)
  simp only [modify, Array.getElem?_map, Array.getElem?_modify]
  split
  · simp [Function.comp_def, Cell.outline_setField _ hname]
  · rfl

/-! ### Links below links -/

/-- Some link below a node has a link below it. -/
def NestsLinks (top : NodeId) : Prop :=
  ∃ (p q : List Nat) (outer inner : NodeId) (c d : Cell), g.Stands top p outer c ∧ c.kind = .link ∧
    g.Stands outer q inner d ∧ q ≠ [] ∧ d.kind = .link

/-- Emphasis of one of the two strengths that stands below a link has a link for a child. -/
def EmphasizesLinks (top : NodeId) : Prop :=
  ∃ (p q : List Nat) (i : Nat) (outer n inner : NodeId) (c e d : Cell), g.Stands top p outer c ∧ c.kind = .link ∧
    g.Stands outer q n e ∧ (e.kind = .emphasis ∨ e.kind = .strong) ∧
    e.items[i]? = some (.node inner) ∧ g.cell? inner = some d ∧ d.kind = .link

variable {g}

private theorem Stands.trans {top m n : NodeId} {p q : List Nat} {c d : Cell} (h : g.Stands top p m c)
    (hbelow : g.Stands m q n d) : g.Stands top (p ++ q) n d := by
  induction h with
  | here => exact hbelow
  | inside hc hchild _ ih => exact .inside hc hchild (ih hbelow)

private theorem Stands.cell? {top n : NodeId} {p : List Nat} {c : Cell} (h : g.Stands top p n c) :
    g.cell? n = some c := by
  induction h with
  | here hc => exact hc
  | inside _ _ _ ih => exact ih

private theorem Stands.exists_cell? {top n : NodeId} {p : List Nat} {c : Cell} (h : g.Stands top p n c) :
    ∃ d, g.cell? top = some d := by
  cases h with
  | here hc | inside hc => exact ⟨_, hc⟩

/-- What stands below a node is a child of a node that stands in its tree. -/
private theorem Stands.exists_parent {top n : NodeId} {p : List Nat} {d : Cell} (h : g.Stands top p n d) (hp : p ≠ []) :
    ∃ (q : List Nat) (i : Nat) (m : NodeId) (c : Cell), g.Stands top q m c ∧ c.items[i]? = some (.node n) ∧
      g.cell? n = some d := by
  induction h with
  | here => exact absurd rfl hp
  | @inside top c i child p n d hc hchild hbelow ih =>
    cases hbelow with
    | here hd => exact ⟨[], i, top, c, .here hc, hchild, hd⟩
    | inside hc' hchild' hbelow' =>
      obtain ⟨q, j, m, e, hm, hj, hd⟩ := ih (by simp)
      exact ⟨i :: q, j, m, e, .inside hc hchild hm, hj, hd⟩

private theorem isParent_of_items {c : Cell} {i : Nat} {x : Item} (h : c.items[i]? = some x) :
    c.kind.isParent = true := by
  cases hparent : c.kind.isParent
  · simp [Cell.items, hparent] at h
  · rfl

/-- Inline nodes with children are emphasis and links. -/
private theorem inline_of_items {c : Cell} (hinline : c.kind.isBlock = false ∧ c.kind ≠ .root) {i : Nat} {x : Item}
    (h : c.items[i]? = some x) : (c.kind = .emphasis ∨ c.kind = .strong) ∨ c.kind = .link := by
  have hparent := isParent_of_items h
  obtain ⟨hblock, hroot⟩ := hinline
  cases hkind : c.kind <;> simp_all [Kind.isBlock, Kind.isParent]

/-- In a tree that keeps the rules only inline nodes stand below an inline node. -/
private theorem Shaped.inline_below {top n m : NodeId} {p q : List Nat} {c d : Cell} (h : g.Shaped top)
    (hn : g.Stands top p n c) (hinline : c.kind.isBlock = false ∧ c.kind ≠ .root) (hm : g.Stands n q m d) :
    d.kind.isBlock = false ∧ d.kind ≠ .root := by
  induction hm generalizing p c with
  | here hd =>
    cases hn.cell?.symm.trans hd
    exact hinline
  | @inside n c' i child q m d hc hchild hbelow ih =>
    cases hn.cell?.symm.trans hc
    obtain ⟨e, he⟩ := hbelow.exists_cell?
    have hstands : g.Stands top (p ++ [i]) child e := hn.trans (.inside hc hchild (.here he))
    refine ih hstands ⟨((h.proper hn).holds hchild he).inlines ?_, fun hroot => ?_⟩
    · rcases inline_of_items hinline hchild with (hkind | hkind) | hkind <;> simp [hkind]
    · simpa using (h.root hstands).1 hroot

/-- In a tree that keeps the rules a link stands below a link exactly where one stands directly in emphasis there. -/
private theorem Shaped.nestsLinks_iff {top : NodeId} (h : g.Shaped top) : g.NestsLinks top ↔ g.EmphasizesLinks top := by
  constructor
  · rintro ⟨p, q, outer, inner, c, d, houter, hlink, hinner, hq, hinnerLink⟩
    obtain ⟨r, i, n, e, hn, hi, hd⟩ := hinner.exists_parent hq
    have hinline := h.inline_below houter (by simp [hlink, Kind.isBlock]) hn
    rcases inline_of_items hinline hi with hkind | hkind
    · exact ⟨p, r, i, outer, n, inner, c, e, d, houter, hlink, hn, hkind, hi, hd, hinnerLink⟩
    · exact absurd hinnerLink (((h.proper (houter.trans hn)).holds hi hd).links hkind)
  · rintro ⟨p, q, i, outer, n, inner, c, e, d, houter, hlink, hn, -, hi, hd, hinnerLink⟩
    have hbelow : g.Stands outer (q ++ [i]) inner d := hn.trans (.inside hn.cell? hi (.here hd))
    exact ⟨p, q ++ [i], outer, inner, c, d, houter, hlink, hbelow, by simp, hinnerLink⟩

/-- Validation finds the same whatever is set for a field other than a value, as the depth of a heading is.  Where it
finds nothing there are links below links exactly if one stands directly in emphasis below a link. -/
theorem issues_overlooks (g : Graph) (positions : Bool) (top : NodeId) :
    (∀ id name v, name ≠ "value" →
      (g.modify id fun c => c.setField name v).issues positions top = g.issues positions top) ∧
    (g.issues positions top = [] → (g.NestsLinks top ↔ g.EmphasizesLinks top)) := by
  constructor
  · intro id name v hname
    rw [← issues_outline, g.outline_setField id hname, issues_outline]
  · intro hissues
    exact (issues_eq_nil_iff.1 hissues).1.nestsLinks_iff

/-- A heading of depth 7 and a link below a link in it. -/
def overlooked : Graph :=
  ⟨#[⟨.root, [], .items [.node 1], none, .empty⟩,
    ⟨.heading, [("depth", .int 7)], .items [.node 2], none, .empty⟩,
    ⟨.link, [("destination", .text "a"), ("title", .null)], .items [.node 3], none, .empty⟩,
    ⟨.emphasis, [], .items [.node 4], none, .empty⟩,
    ⟨.link, [("destination", .text "b"), ("title", .null)], .items [], none, .empty⟩]⟩

/-- Another depth changes nothing, and the links are seen from the emphasis between them. -/
theorem issues_overlooks_emphasis :
    (overlooked.modify 1 fun c => c.setField "depth" (.int 0)).issues true 0 = [] ∧ overlooked.NestsLinks 0 := by
  constructor
  · rw [(issues_overlooks overlooked true 0).1 1 "depth" (.int 0) (by decide)]
    decide
  · have hlink : overlooked.Stands 0 [0, 0] 2 _ := .inside rfl rfl (.inside rfl rfl (.here rfl))
    have hemphasis : overlooked.Stands 2 [0] 3 _ := .inside rfl rfl (.here rfl)
    exact ((issues_overlooks overlooked true 0).2 (by decide)).2
      ⟨[0, 0], [0], 0, 2, 3, 4, _, _, _, hlink, rfl, hemphasis, .inl rfl, rfl, rfl, rfl⟩

/-- Nothing is found in a tree with a heading of depth 7 and a link below a link. -/
theorem issues_overlooked :
    overlooked.issues true 0 = [] ∧
      (∃ c, overlooked.Stands 0 [0] 1 c ∧ c.kind = .heading ∧ c.field? "depth" = some (.int 7)) ∧
      overlooked.NestsLinks 0 := by
  have hheading : overlooked.Stands 0 [0] 1 _ := .inside rfl rfl (.here rfl)
  have houter : overlooked.Stands 0 [0, 0] 2 _ := .inside rfl rfl (.inside rfl rfl (.here rfl))
  have hinner : overlooked.Stands 2 [0, 0] 4 _ := .inside rfl rfl (.inside rfl rfl (.here rfl))
  exact ⟨by decide, ⟨_, hheading, rfl, rfl⟩, [0, 0], [0, 0], 2, 4, _, _, houter, rfl, hinner, by simp, rfl⟩

end Graph

end MarkdownTree
