import MarkdownTree.Proofs.Grammar
import MarkdownTree.Print.Options

/-!
# Paragraphs without content

Deleting inline nodes may leave paragraphs without children.  They are printed as nothing, but the block behind one is
printed with a look at what stands directly before it (`minds`).  `Tree.disturbed` tells whether a paragraph without
children makes a difference to the block behind it, anywhere in a tree.
-/

namespace MarkdownTree

open Text

variable {α : Type}

namespace Tree

/-- A paragraph without children. -/
def isSilent : Tree α → Bool
  | node _ .paragraph [] => true
  | _ => false

mutual

/-- The tree without the paragraphs below its top that have no children. -/
def withoutSilent : Tree α → Tree α
  | node note content children => node note content (withoutSilentList children)

/-- A row of trees without paragraphs that have no children. -/
def withoutSilentList : List (Tree α) → List (Tree α)
  | [] => []
  | t :: ts => if t.isSilent then withoutSilentList ts else withoutSilent t :: withoutSilentList ts

end

mutual

/-- The second tree is the first with some inline nodes deleted. -/
inductive Thins : Tree α → Tree α → Prop
  | node {note : α} {content : Content} {ss ts : List (Tree α)} (h : ThinsList ss ts) :
    Thins (node note content ss) (node note content ts)

/-- The second row of trees is the first with some inline nodes deleted. -/
inductive ThinsList : List (Tree α) → List (Tree α) → Prop
  | nil : ThinsList [] []
  | keep {s t : Tree α} {ss ts : List (Tree α)} (h : Thins s t) (hs : ThinsList ss ts) :
    ThinsList (s :: ss) (t :: ts)
  | delete {s : Tree α} {ss ts : List (Tree α)} (h : s.kind.isInline = true) (hs : ThinsList ss ts) :
    ThinsList (s :: ss) ts

end

mutual

/-- The tree without the inline nodes of some kinds below its top. -/
def thin (gone : Kind → Bool) : Tree α → Tree α
  | node note content children => node note content (thinList gone children)

/-- A row of trees without the inline nodes of some kinds. -/
def thinList (gone : Kind → Bool) : List (Tree α) → List (Tree α)
  | [] => []
  | t :: ts => if t.kind.isInline && gone t.kind then thinList gone ts else thin gone t :: thinList gone ts

end

/-- Blocks stand where blocks can, lists have items, what stands in phrasing is inline, headings have a depth, and texts
have nothing below them. -/
structure Composed (t : Tree α) : Prop where
  blocks : t.kind = .root ∨ t.kind = .blockQuote ∨ t.kind = .listItem →
    ∀ c ∈ t.children, c.kind.isFlow = true ∨ c.kind = .frontMatter
  items : t.kind = .list → t.children ≠ [] ∧ ∀ c ∈ t.children, c.kind = .listItem
  phrasing : t.kind = .heading ∨ t.kind = .paragraph ∨ t.kind.isInline = true → ∀ c ∈ t.children, c.kind.isInline = true
  depth : ∀ depth, t.content = .heading depth → 1 ≤ depth
  text : t.kind = .text → t.children = []

/-- A text of several lines, or a break, stands in the tree. -/
def breaksLine (t : Tree α) : Bool :=
  t.preorder.any fun u => match u.content with
    | .text value => value.toList.contains '\n'
    | .lineBreak => true
    | _ => false

/-- Something other than blanks is printed for an inline node. -/
def shows (t : Tree α) : Bool :=
  match t.content with
  | .text value => value.toList.any (!isBlank ·)
  | _ => true

end Tree

namespace Print

/-- What stands directly before a block among its siblings. -/
inductive Before where
  | nothing
  | paragraph
  /-- A list with the mark that it is printed with. -/
  | list (ordered : Bool) (mark : Char)
  | other
deriving DecidableEq

/-- The container of a block, whether it is tight, and the mark of the item if it is one of an unordered list. -/
structure Site where
  kind : Kind
  tight : Bool := false
  bullet : Option Char := none

variable (o : PrintOptions)

/-- The mark of a list that does not stand behind another one. -/
def markOf (ordered : Bool) : Char :=
  if ordered then o.numberMark.char else o.bullet.char

/-- The mark of a list that stands behind another one with that mark. -/
def otherMark (ordered : Bool) : Char :=
  if ordered then if o.numberMark.char = '.' then ')' else '.' else if o.bullet.char = '-' then '*' else '-'

namespace Before

/-- The mark of a list. -/
def mark (b : Before) (ordered : Bool) : Char :=
  if b = .list ordered (markOf o ordered) then otherMark o ordered else markOf o ordered

/-- The mark that a block is printed with if it is a list. -/
def markFor (b : Before) (t : Tree α) : Option Char :=
  match t.content with
  | .list ordered _ _ => some (b.mark o ordered)
  | _ => none

/-- What stands before the block that comes next. -/
def after (b : Before) (t : Tree α) : Before :=
  match t.content with
  | .paragraph => .paragraph
  | .list ordered _ _ => .list ordered (b.mark o ordered)
  | _ => .other

end Before

/-- Whether a block is printed otherwise if a paragraph without children stands directly before it: a list that takes
another mark than the list before it, a rule whose mark depends on its place, or a heading that is underlined unless it
stands directly below a paragraph. -/
def minds (site : Site) (b : Before) (t : Tree α) : Bool :=
  match t.content with
  | .list ordered _ _ => b == .list ordered (markOf o ordered)
  | .thematicBreak =>
    match o.rule with
    | .underscore => false
    | .star => b == .nothing && site.kind == .listItem && site.bullet == some '*'
    | .hyphen =>
      if site.kind == .listItem && site.tight then b != .paragraph && !(b == .nothing && site.bullet == some '-')
      else b == .nothing && (site.kind == .root || site.kind == .listItem && site.bullet == some '-')
  | .heading depth =>
    site.kind == .listItem && site.tight && b != .paragraph && Decidable.decide (depth ≤ 2) &&
      (o.setext || t.children.any Tree.breaksLine) && t.children.any Tree.shows
  | _ => false

mutual

/-- Whether a paragraph without children stands before a block in the tree that is printed otherwise for it.  A list is
given the mark that it is printed with, and an item that of its list, if it is not ordered. -/
def disturbed (mark : Option Char) : Tree α → Bool
  | .node _ content children =>
    match content with
    | .root => disturbedRow { kind := .root } .nothing false children
    | .blockQuote => disturbedRow { kind := .blockQuote } .nothing false children
    | .list ordered _ _ => disturbedItems (if ordered then none else mark) children
    | .listItem spread _ => disturbedRow { kind := .listItem, tight := !spread, bullet := mark } .nothing false children
    | _ => false

/-- `disturbed` for the items of a list. -/
def disturbedItems (bullet : Option Char) : List (Tree α) → Bool
  | [] => false
  | t :: ts => disturbed bullet t || disturbedItems bullet ts

/-- `disturbed` for a row of blocks: `silence` says that a paragraph without children stands before them, behind what
stands before them otherwise. -/
def disturbedRow (site : Site) (b : Before) (silence : Bool) : List (Tree α) → Bool
  | [] => false
  | t :: ts =>
    if t.isSilent then disturbedRow site b true ts
    else silence && minds o site b t || disturbed (b.markFor o t) t || disturbedRow site (b.after o t) false ts

end

end Print

namespace Tree

/-! ### Trees with nodes deleted -/

mutual

theorem thins_thin (gone : Kind → Bool) : ∀ t : Tree α, Thins t (t.thin gone)
  | node _ _ children => .node (thinsList_thinList gone children)

private theorem thinsList_thinList (gone : Kind → Bool) : ∀ ts : List (Tree α), ThinsList ts (thinList gone ts)
  | [] => .nil
  | t :: ts => by
    rw [thinList]
    split
    · rename_i h
      exact .delete (Bool.and_eq_true_iff.1 h).1 (thinsList_thinList gone ts)
    · exact .keep (thins_thin gone t) (thinsList_thinList gone ts)

end

mutual

theorem Thins.refl : ∀ t : Tree α, Thins t t
  | node _ _ children => .node (thinsList_refl children)

private theorem thinsList_refl : ∀ ts : List (Tree α), ThinsList ts ts
  | [] => .nil
  | t :: ts => .keep (Thins.refl t) (thinsList_refl ts)

end

theorem Thins.content_eq {s t : Tree α} (h : Thins s t) : t.content = s.content := by
  cases h
  rfl

theorem Thins.children {s t : Tree α} (h : Thins s t) : ThinsList s.children t.children := by
  cases h with
  | node h => exact h

/-- What is left in a row was there. -/
private theorem ThinsList.exists_mem : ∀ {ss ts : List (Tree α)}, ThinsList ss ts → ∀ {t}, t ∈ ts → ∃ s ∈ ss, Thins s t
  | _, _, .keep h hs, t, ht => by
    rcases ht with _ | ⟨_, ht⟩
    · exact ⟨_, .head _, h⟩
    · obtain ⟨s, hmem, hthins⟩ := hs.exists_mem ht
      exact ⟨s, .tail _ hmem, hthins⟩
  | _, _, .delete _ hs, t, ht => by
    obtain ⟨s, hmem, hthins⟩ := hs.exists_mem ht
    exact ⟨s, .tail _ hmem, hthins⟩

/-- A row that does not start with an inline node keeps what it starts with. -/
private theorem ThinsList.ne_nil {ss ts : List (Tree α)} (h : ThinsList ss ts) (hne : ss ≠ [])
    (hkept : ∀ s ∈ ss, s.kind.isInline = false) : ts ≠ [] := by
  cases h with
  | nil => exact hne
  | keep => simp
  | delete hs => exact absurd hs (by simp [hkept _ (.head _)])

mutual

theorem Thins.exists_mem_preorder : ∀ {s t : Tree α}, Thins s t → ∀ {v}, v ∈ t.preorder → ∃ u ∈ s.preorder, Thins u v
  | _, _, .node h, v, hv => by
    rw [preorder] at hv ⊢
    rcases hv with _ | ⟨_, hv⟩
    · exact ⟨_, .head _, .node h⟩
    · obtain ⟨u, hu, hthins⟩ := h.exists_mem_preorderList hv
      exact ⟨u, .tail _ hu, hthins⟩

private theorem ThinsList.exists_mem_preorderList :
    ∀ {ss ts : List (Tree α)}, ThinsList ss ts → ∀ {v}, v ∈ preorderList ts →
    ∃ u ∈ preorderList ss, Thins u v
  | _, _, .keep h hs, v, hv => by
    rw [preorderList, List.mem_append] at hv
    rw [preorderList]
    rcases hv with hv | hv
    · obtain ⟨u, hu, hthins⟩ := h.exists_mem_preorder hv
      exact ⟨u, List.mem_append_left _ hu, hthins⟩
    · obtain ⟨u, hu, hthins⟩ := hs.exists_mem_preorderList hv
      exact ⟨u, List.mem_append_right _ hu, hthins⟩
  | _, _, .delete _ hs, v, hv => by
    obtain ⟨u, hu, hthins⟩ := hs.exists_mem_preorderList hv
    rw [preorderList]
    exact ⟨u, List.mem_append_right _ hu, hthins⟩

end

/-- What is left of a grammatical node is composed as it was. -/
theorem Thins.composed {o : ScanOptions} {s t : Tree Position} (h : Thins s t) (hs : Grammatical o s) : Composed t := by
  have hkind : t.kind = s.kind := congrArg Content.kind h.content_eq
  have hchild {c : Tree Position} (hc : c ∈ t.children) : ∃ d ∈ s.children, c.kind = d.kind := by
    obtain ⟨d, hd, hthins⟩ := h.children.exists_mem hc
    exact ⟨d, hd, congrArg Content.kind hthins.content_eq⟩
  constructor
  · intro hk c hc
    obtain ⟨d, hd, hkd⟩ := hchild hc
    rw [hkind] at hk
    rw [hkd]
    rcases hk with hk | hk
    · have ⟨hfirst, hrest⟩ := hs.root hk
      cases hchildren : s.children with
      | nil =>
        rw [hchildren] at hd
        cases hd
      | cons e es =>
        rw [hchildren] at hd hfirst hrest
        rcases hd with _ | ⟨_, hd⟩
        · exact (hfirst d rfl).imp_right And.left
        · exact .inl (hrest d hd)
    · exact .inl (hs.container hk d hd)
  · intro hk
    rw [hkind] at hk
    obtain ⟨hne, hitems⟩ := hs.list hk
    constructor
    · refine h.children.ne_nil hne fun d hd => ?_
      rw [hitems d hd]
      rfl
    · intro c hc
      obtain ⟨d, hd, hkd⟩ := hchild hc
      rw [hkd]
      exact hitems d hd
  · intro hk c hc
    obtain ⟨d, hd, hkd⟩ := hchild hc
    rw [hkind] at hk
    rw [hkd]
    rcases hk with hk | hk | hk
    · exact hs.phrasing (.inl hk) d hd
    · exact hs.phrasing (.inr (.inl hk)) d hd
    · cases hparent : s.kind.isParent with
      | false =>
        rw [hs.leaf hparent] at hd
        cases hd
      | true =>
        refine hs.phrasing (.inr (.inr ?_)) d hd
        cases hkind : s.kind <;> rw [hkind] at hk hparent <;> first | (cases hk; done) | (cases hparent; done) | simp
  · intro depth hcontent
    rw [h.content_eq] at hcontent
    exact (hs.depth depth hcontent).1
  · intro hk
    rw [hkind] at hk
    have hchildren := h.children
    rw [hs.leaf (by rw [hk]; rfl)] at hchildren
    generalize t.children = cs at hchildren
    cases hchildren
    rfl

/-! ### Rows without silent paragraphs -/

theorem any_preorderList (p : Tree α → Bool) (ts : List (Tree α)) :
    (preorderList ts).any p = ts.any fun t => t.preorder.any p := by
  induction ts with
  | nil => rfl
  | cons t ts ih => rw [preorderList, List.any_append, ih, List.any_cons]

theorem isSilent_iff {t : Tree α} : t.isSilent = true ↔ t.content = .paragraph ∧ t.children = [] := by
  obtain ⟨note, content, children⟩ := t
  cases content <;> cases children <;> simp [isSilent, Tree.content, Tree.children]

theorem content_withoutSilent (t : Tree α) : t.withoutSilent.content = t.content := by
  cases t
  rfl

mutual

/-- Only what is below a paragraph, a heading or an inline node may be inline, and there all is. -/
theorem inline_preorder : ∀ {t : Tree α}, (∀ u ∈ t.preorder, Composed u) → t.kind.isInline = true →
    ∀ u ∈ t.preorder, u.kind.isInline = true
  | node note content children, h, hkind => by
    rw [forall_mem_preorder] at h ⊢
    refine ⟨hkind, forall_mem_preorderList.1 (inline_preorderList (forall_mem_preorderList.2 h.2) ?_)⟩
    exact h.1.phrasing (.inr (.inr hkind))

private theorem inline_preorderList : ∀ {ts : List (Tree α)}, (∀ u ∈ preorderList ts, Composed u) →
    (∀ t ∈ ts, t.kind.isInline = true) → ∀ u ∈ preorderList ts, u.kind.isInline = true
  | [], _, _ => by simp [preorderList]
  | t :: ts, h, hkind => by
    obtain ⟨ht, hts⟩ := List.forall_mem_append.1 h
    obtain ⟨hkindt, hkindts⟩ := List.forall_mem_cons.1 hkind
    exact List.forall_mem_append.2 ⟨inline_preorder ht hkindt, inline_preorderList hts hkindts⟩

end

/-- What is below a heading, a paragraph or an inline node is inline. -/
theorem inline_below {t : Tree α} (h : ∀ u ∈ t.preorder, Composed u)
    (hkind : t.kind = .heading ∨ t.kind = .paragraph ∨ t.kind.isInline = true) :
    ∀ u ∈ preorderList t.children, u.kind.isInline = true := by
  rw [forall_mem_preorder] at h
  exact inline_preorderList (forall_mem_preorderList.2 h.2) (h.1.phrasing hkind)

mutual

theorem withoutSilent_inline : ∀ {t : Tree α}, (∀ u ∈ preorderList t.children, u.kind.isInline = true) →
    t.withoutSilent = t
  | node note content children, h => by
    rw [withoutSilent]
    exact congrArg _ (withoutSilentList_inline h)

private theorem withoutSilentList_inline : ∀ {ts : List (Tree α)}, (∀ u ∈ preorderList ts, u.kind.isInline = true) →
    withoutSilentList ts = ts
  | [], _ => rfl
  | t :: ts, h => by
    obtain ⟨ht, hts⟩ := List.forall_mem_append.1 h
    have hsilent : t.isSilent = false := by
      refine Bool.eq_false_iff.2 fun hsilent => ?_
      have hinline := ht t (mem_preorder_self t)
      rw [kind, (isSilent_iff.1 hsilent).1] at hinline
      cases hinline
    rw [withoutSilentList, hsilent, withoutSilentList_inline hts]
    rw [withoutSilent_inline (forall_mem_preorderList.2 (forall_mem_preorder.1 ht).2)]
    rfl

end

/-! ### Other notes -/

variable {β : Type} (f : α → β)

private theorem isSilent_map (t : Tree α) : (t.map f).isSilent = t.isSilent := by
  obtain ⟨note, content, children⟩ := t
  cases content <;> cases children <;> rfl

mutual

private theorem withoutSilent_map : ∀ t : Tree α, (t.map f).withoutSilent = t.withoutSilent.map f
  | node note content children => by
    rw [map, withoutSilent, withoutSilent, map, withoutSilentList_map children]

theorem withoutSilentList_map : ∀ ts : List (Tree α),
    withoutSilentList (mapList f ts) = mapList f (withoutSilentList ts)
  | [] => rfl
  | t :: ts => by
    rw [mapList, withoutSilentList, withoutSilentList, isSilent_map, withoutSilent_map t, withoutSilentList_map ts]
    split
    · rfl
    · rw [mapList]

end

theorem breaksLine_map (t : Tree α) : (t.map f).breaksLine = t.breaksLine := by
  rw [breaksLine, breaksLine, preorder_map, List.any_map]
  refine congrArg (List.any _) (funext fun u => ?_)
  rw [Function.comp_apply, content_map]

private theorem shows_map (t : Tree α) : (t.map f).shows = t.shows := by
  rw [shows, shows, content_map]

theorem Composed.map {t : Tree α} (h : Composed t) : Composed (t.map f) := by
  obtain ⟨hblocks, hitems, hphrasing, hdepth, htext⟩ := h
  simp only [← kind_map f t, ← content_map f t] at hblocks hitems hphrasing hdepth htext
  refine ⟨fun hk => ?_, fun hk => ?_, fun hk => ?_, hdepth, fun hk => ?_⟩
  · rw [children_map, List.forall_mem_map]
    intro c hc
    rw [kind_map]
    exact hblocks hk c hc
  · rw [children_map, List.forall_mem_map, ne_eq, List.map_eq_nil_iff]
    refine ⟨(hitems hk).1, fun c hc => ?_⟩
    rw [kind_map]
    exact (hitems hk).2 c hc
  · rw [children_map, List.forall_mem_map]
    intro c hc
    rw [kind_map]
    exact hphrasing hk c hc
  · rw [children_map, htext hk]
    rfl

end Tree

namespace Print

variable {β : Type} (o : PrintOptions) (f : α → β)

private theorem minds_map (site : Site) (b : Before) (t : Tree α) : minds o site b (t.map f) = minds o site b t := by
  obtain ⟨note, content, children⟩ := t
  cases content <;>
    simp [minds, Tree.map, Tree.content, Tree.children, Tree.mapList_eq_map, Function.comp_def, Tree.breaksLine_map,
      Tree.shows_map]

private theorem Before.markFor_map (b : Before) (t : Tree α) : b.markFor o (t.map f) = b.markFor o t := by
  rw [markFor, markFor, Tree.content_map]

theorem Before.after_map (b : Before) (t : Tree α) : b.after o (t.map f) = b.after o t := by
  rw [after, after, Tree.content_map]

mutual

private theorem disturbed_map : ∀ (t : Tree α) (mark : Option Char), disturbed o mark (t.map f) = disturbed o mark t
  | .node note content children, mark => by
    have hrow := disturbedRow_map children
    have hitems := disturbedItems_map children
    rw [Tree.map]
    unfold disturbed
    cases content with
    | root | blockQuote | listItem => exact hrow _ _ _
    | list => exact hitems _
    | _ => rfl

private theorem disturbedItems_map : ∀ (ts : List (Tree α)) (bullet : Option Char),
    disturbedItems o bullet (Tree.mapList f ts) = disturbedItems o bullet ts
  | [], _ => rfl
  | t :: ts, bullet => by
    rw [Tree.mapList, disturbedItems, disturbedItems, disturbed_map t, disturbedItems_map ts]

theorem disturbedRow_map : ∀ (ts : List (Tree α)) (site : Site) (b : Before) (silence : Bool),
    disturbedRow o site b silence (Tree.mapList f ts) = disturbedRow o site b silence ts
  | [], _, _, _ => rfl
  | t :: ts, site, b, silence => by
    have ht := disturbed_map t
    have hts := disturbedRow_map ts
    rw [Tree.mapList, disturbedRow, disturbedRow, Tree.isSilent_map, minds_map, Before.markFor_map, Before.after_map, ht]
    simp only [hts]

end

end Print

end MarkdownTree
