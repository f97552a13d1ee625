import MarkdownTree.Proofs.Gap
import MarkdownTree.Proofs.Nesting

/-!
# Spread list items

Every list item of a document has own lines, those which it takes without its marker and its indentation (`itemRows`).
The flag of an item says that a blank line among them stands between two of its blocks of which the first is no list
(`scan_spread`).  A blank line between a list and the block behind it is not seen, as the list takes it
(`scan_spread_list`).
-/

namespace MarkdownTree

/-- Kinds of blocks that hold blocks. -/
def Kind.holdsBlocks : Kind → Bool
  | root | blockQuote | list | listItem => true
  | _ => false

private theorem Kind.holdsBlocks_of_isInline {k : Kind} (h : k.isInline = true) : k.holdsBlocks = false := by
  revert h
  cases k <;> simp [Kind.isInline, Kind.holdsBlocks]

namespace Content

/-- Blocks that hold no blocks, and words, hold words only. -/
theorem Admits.inline {content : Content} {children : List Content} (h : content.Admits children)
    (hkind : content.kind.holdsBlocks = false) : ∀ c ∈ children, c.kind.isInline = true := by
  cases content with
  | root | blockQuote | list | listItem => cases hkind
  | heading | paragraph | emphasis | strong => exact h.1.inline
  | link => exact Phrasing.inline h
  | codeBlock | text | inlineCode => simp [h.1]
  | frontMatter | thematicBreak | image | lineBreak =>
    rw [show children = [] from h]
    simp

end Content

namespace Tree

variable {α : Type u} {β : Type v}

private theorem preorderList_eq_flatMap (ts : List (Tree α)) : preorderList ts = ts.flatMap preorder := by
  induction ts with
  | nil => rfl
  | cons t ts ih => rw [preorderList, ih, List.flatMap_cons]

/-- The list items of a tree, in document order. -/
def items (t : Tree α) : List (Tree α) :=
  t.preorder.filter fun u => u.kind = .listItem

private theorem items_map (f : α → β) (t : Tree α) : (t.map f).items = t.items.map (map f) := by
  rw [items, preorder_map, List.filter_map, items]
  simp only [Function.comp_def, kind_map]

private theorem items_node {note : α} {content : Content} {children : List (Tree α)} (h : content.kind ≠ .listItem) :
    (node note content children).items = children.flatMap items := by
  rw [items, preorder, preorderList_eq_flatMap, List.filter_cons_of_neg (by rw [decide_eq_true_iff]; exact h),
    List.filter_flatMap]
  rfl

private theorem items_listItem (note : α) (spread : Bool) (checked : Option Bool) (children : List (Tree α)) :
    (node note (.listItem spread checked) children).items =
      node note (.listItem spread checked) children :: children.flatMap items := by
  rw [items, preorder, preorderList_eq_flatMap, List.filter_cons_of_pos (by rfl), List.filter_flatMap]
  rfl

end Tree

namespace Scan

variable {source : List Char} {lo hi : Nat} {ls : List Line}

mutual

/-- Below a node that holds no blocks all is inline. -/
theorem isInline_below : ∀ {t : Tree Span}, (∀ u ∈ t.preorder, Regular source u) →
    t.kind.holdsBlocks = false → ∀ u ∈ Tree.preorderList t.children, u.kind.isInline = true
  | .node span content children, h, hkind => by
    obtain ⟨htop, hchildren⟩ := Tree.forall_mem_preorder.1 h
    exact isInline_preorderList hchildren fun t ht => htop.admits.inline hkind t.content (List.mem_map_of_mem ht)

private theorem isInline_preorderList : ∀ {ts : List (Tree Span)},
    (∀ t ∈ ts, ∀ u ∈ t.preorder, Regular source u) → (∀ t ∈ ts, t.kind.isInline = true) →
    ∀ u ∈ Tree.preorderList ts, u.kind.isInline = true
  | [], _, _ => by simp [Tree.preorderList]
  | t :: ts, h, hinline => by
    obtain ⟨ht, hts⟩ := List.forall_mem_cons.1 h
    obtain ⟨hkind, hkinds⟩ := List.forall_mem_cons.1 hinline
    rw [Tree.preorderList, Tree.preorder_eq, List.cons_append, List.forall_mem_cons, List.forall_mem_append]
    exact ⟨hkind, isInline_below ht (Kind.holdsBlocks_of_isInline hkind), isInline_preorderList hts hkinds⟩

end

/-- No blocks stand in nodes that hold none. -/
theorem holdsBlocks_preorder {t : Tree Span} (h : ∀ u ∈ t.preorder, Regular source u)
    (hkind : t.kind.holdsBlocks = false) : ∀ u ∈ t.preorder, u.kind.holdsBlocks = false := by
  rw [Tree.preorder_eq, List.forall_mem_cons]
  exact ⟨hkind, fun u hu => Kind.holdsBlocks_of_isInline (isInline_below h hkind u hu)⟩

private theorem items_eq_nil {t : Tree Span} (h : ∀ u ∈ t.preorder, Regular source u)
    (hkind : t.kind.holdsBlocks = false) :
    t.items = [] := by
  refine List.filter_eq_nil_iff.2 fun u hu => ?_
  have := holdsBlocks_preorder h hkind u hu
  revert this
  cases u.kind <;> simp [Kind.holdsBlocks]

/-! ### Own lines -/

/-- The own lines of the list items in a row of lines, in document order. -/
def ownRows (o : ScanOptions) : Nat → Bool → List Line → List (List Line)
  | 0, _, _ => []
  | room + 1, inItem, lines =>
    (Setting.segments ⟨o.tabSize, true, inItem⟩ o.nestingLimit false lines).flatMap fun seg =>
      seg.chunk.rows.flatMap fun r => (if r.1 then [r.2] else []) ++ ownRows o room r.1 r.2

/-- The own lines of the list items of a text, in document order. -/
def itemRows (o : ScanOptions) (text : List Char) : List (List Line) :=
  ownRows o o.maxNesting false (splitDocument o.frontMatter text).2

private theorem ItemsWithin.fit {items : List ItemChunk} (h : ItemsWithin source lo items hi) :
    ∀ item ∈ items, Line.Fit source item.marker.start item.lines item.stop := by
  induction items generalizing lo with
  | nil => simp
  | cons item items ih => exact List.forall_mem_cons.2 ⟨h.2.1, ih h.2.2⟩

/-- Every row inside a chunk fits between some places. -/
theorem Chunk.Within.fit_rows {c : Chunk} (h : c.Within source lo hi) :
    ∀ r ∈ c.rows, ∃ lo hi, Line.Fit source lo r.2 hi := by
  cases c with
  | quote span lines => exact List.forall_mem_singleton.2 ⟨_, _, h.2.1⟩
  | list marker items => exact List.forall_mem_map.2 fun item hitem => ⟨_, _, h.2.2.2.fit item hitem⟩
  | _ => simp [Chunk.rows]

theorem SegmentsWithin.within {segments : List Segment} (h : SegmentsWithin source lo segments hi) :
    ∀ seg ∈ segments, ∃ lo hi, seg.chunk.Within source lo hi := by
  induction segments generalizing lo with
  | nil => simp
  | cons seg segments ih =>
    obtain ⟨mid, hfirst, hrest⟩ := h
    exact List.forall_mem_cons.2 ⟨⟨lo, mid, hfirst⟩, ih hrest⟩

private theorem forall₂_flatMap {α β γ : Type} {R : β → γ → Prop} {f : α → List β} {g : α → List γ} {as : List α}
    (h : ∀ a ∈ as, List.Forall₂ R (f a) (g a)) : List.Forall₂ R (as.flatMap f) (as.flatMap g) := by
  induction as with
  | nil => exact .nil
  | cons a as ih =>
    obtain ⟨ha, has⟩ := List.forall_mem_cons.1 h
    rw [List.flatMap_cons, List.flatMap_cons]
    exact List.rel_append ha (ih has)

/-- The flag of a list item with the given own lines says that one of them, a blank one, stands between two blocks of
which the first is no list. -/
def TellsSpread (item : Tree Span) (lines : List Line) : Prop :=
  ∃ spread checked, item.content = .listItem spread checked ∧
    (spread = true ↔ ∃ c d, [c, d] <:+: item.children ∧ c.kind ≠ .list ∧ BlankBetween lines c.note.stop d.note.start)

section

variable {inner : Inner} (more : Bool → List Line → List (List Line)) (hinner : inner.Flows source)
  (htells : ∀ item lo hi, Line.Fit source lo item.lines hi → TellsSpread (itemTree inner item).1 item.lines)
include hinner htells

/-- The list items of a chunk are those it is made of, each with those inside it. -/
private theorem tellsSpread_chunkTree {c : Chunk} (h : c.Within source lo hi)
    (hrows : ∀ r ∈ c.rows, List.Forall₂ TellsSpread ((inner r.1 r.2).trees.flatMap Tree.items) (more r.1 r.2)) :
    List.Forall₂ TellsSpread (chunkTree inner c).1.items
      (c.rows.flatMap fun r => (if r.1 then [r.2] else []) ++ more r.1 r.2) := by
  have hfit := h.fit_rows
  have hregular := (flow_chunkTree hinner h).regular _ (.head _)
  cases c with
  | quote span lines =>
    simp only [chunkTree, Chunk.rows, List.flatMap_singleton]
    rw [Tree.items_node (by simp [Content.kind])]
    exact hrows (false, lines) (.head _)
  | list marker items =>
    simp only [chunkTree, Chunk.rows, List.flatMap_map]
    rw [Tree.items_node (by simp [Content.kind])]
    simp only [List.map_map, List.flatMap_map]
    refine forall₂_flatMap fun item hitem => ?_
    have hmem : (true, item.lines) ∈ (Chunk.list marker items).rows := List.mem_map.2 ⟨item, hitem, rfl⟩
    obtain ⟨lo, hi, hfit⟩ := hfit (true, item.lines) hmem
    have hitems : (itemTree inner item).1.items =
        (itemTree inner item).1 :: (inner true item.lines).trees.flatMap Tree.items := Tree.items_listItem _ _ _ _
    rw [Function.comp_apply, hitems]
    exact .cons (htells item lo hi hfit) (hrows (true, item.lines) hmem)
  | _ =>
    rw [items_eq_nil hregular rfl]
    exact .nil

private theorem tellsSpread_assemble {segments : List Segment} (h : SegmentsWithin source lo segments hi)
    (hrows : ∀ seg ∈ segments, ∀ r ∈ seg.chunk.rows,
      List.Forall₂ TellsSpread ((inner r.1 r.2).trees.flatMap Tree.items) (more r.1 r.2)) :
    List.Forall₂ TellsSpread ((assemble inner segments).trees.flatMap Tree.items)
      (segments.flatMap fun seg => seg.chunk.rows.flatMap fun r => (if r.1 then [r.2] else []) ++ more r.1 r.2) := by
  rw [trees_assemble, List.map_map, List.flatMap_map]
  refine forall₂_flatMap fun seg hseg => ?_
  obtain ⟨lo, hi, hwithin⟩ := h.within seg hseg
  exact tellsSpread_chunkTree more hinner htells hwithin (hrows seg hseg)

end

private theorem tellsSpread_readBlocks (o : ScanOptions) (room : Nat) (inItem : Bool) (h : Line.Fit source lo ls hi) :
    List.Forall₂ TellsSpread ((readBlocks o room inItem ls).trees.flatMap Tree.items) (ownRows o room inItem ls) := by
  induction room generalizing inItem ls lo hi with
  | zero =>
    have hnone : Inner.Flows source fun _ _ => ⟨[], [], false⟩ := fun _ _ _ _ hfit => .nil hfit.le
    have hrows : ∀ seg ∈ Setting.segments ⟨o.tabSize, false, inItem⟩ o.nestingLimit false ls, seg.chunk.rows = [] :=
      fun seg hseg => Chunk.rows_eq_nil (Setting.isContainer_segments rfl seg hseg)
    have hnil : (Setting.segments ⟨o.tabSize, false, inItem⟩ o.nestingLimit false ls).flatMap
        (fun seg => seg.chunk.rows.flatMap fun r => (if r.1 then [r.2] else []) ++ []) = [] :=
      List.flatMap_eq_nil_iff.2 fun seg hseg => by rw [hrows seg hseg]; rfl
    have htells := tellsSpread_assemble (fun _ _ => []) hnone
      (fun item _ _ _ => ⟨_, _, rfl, by simp [itemTree, Tree.children]⟩)
      (Setting.within_segments ⟨o.tabSize, false, inItem⟩ o.nestingLimit false ls h)
      fun seg hseg r hr => by rw [hrows seg hseg] at hr; cases hr
    rw [hnil] at htells
    exact htells
  | succ room ih =>
    refine tellsSpread_assemble _ (flow_readBlocks o room) (fun item _ _ hfit => ?_) (Setting.within_segments _ _ _ _ h)
      fun seg hseg r hr => ?_
    · exact ⟨_, _, rfl, loose_readBlocks o room true hfit⟩
    · obtain ⟨lo, hi, hwithin⟩ := (Setting.within_segments _ _ _ _ h).within seg hseg
      obtain ⟨lo, hi, hfit⟩ := hwithin.fit_rows r hr
      exact ih r.1 hfit

/-! ### Documents -/

theorem splitDocument_fit (front : Bool) (text : List Char) :
    ∃ mid, Line.Fit text mid (splitDocument front text).2 text.length ∧
      ∀ t ∈ (splitDocument front text).1, t.kind = .frontMatter ∧ ∀ u ∈ t.preorder, Regular text u := by
  have hfit := Line.fit_linesOf text
  unfold splitDocument
  split
  · rename_i t rest hfront
    split at hfront
    · obtain ⟨hkind, -, -, hregular, hrest⟩ := frontMatter?_eq_some hfront hfit
      exact ⟨_, hrest, List.forall_mem_singleton.2 ⟨hkind, hregular⟩⟩
    · cases hfront
  · exact ⟨0, hfit, by simp⟩

private theorem tellsSpread_readDocument (o : ScanOptions) (text : List Char) :
    List.Forall₂ TellsSpread (readDocument o text).tree.items (itemRows o text) := by
  obtain ⟨mid, hfit, hfront⟩ := splitDocument_fit o.frontMatter text
  have hnil : (splitDocument o.frontMatter text).1.flatMap Tree.items = [] :=
    List.flatMap_eq_nil_iff.2 fun t ht => items_eq_nil (hfront t ht).2 (by rw [(hfront t ht).1]; rfl)
  rw [readDocument_eq, Tree.items_node (by simp [Content.kind]), List.flatMap_append, hnil]
  exact tellsSpread_readBlocks o o.maxNesting false hfit

/-- The flag of every list item says that a blank line among the item's own lines stands between two of its blocks, the
first of which is no list. -/
theorem scan_spread (o : ScanOptions) (path : Option String) (text : String) :
    ∃ t, (scan o path text).tree = some t ∧
      List.Forall₂ (fun item lines => ∃ spread checked, item.content = .listItem spread checked ∧
          (spread = true ↔ ∃ c d, [c, d] <:+: item.children ∧ c.kind ≠ .list ∧
            BlankBetween lines c.note.stop.offset d.note.start.offset))
        t.items (itemRows o text.toList) := by
  refine ⟨_, tree_scan o path text, ?_⟩
  rw [Tree.items_map, List.forall₂_map_left_iff]
  have hbounds : ∀ item ∈ (readDocument o text.toList).tree.items, ∀ c ∈ item.children,
      c.note.start ≤ c.note.stop ∧ c.note.stop ≤ text.toList.length := by
    intro item hitem c hc
    refine bounds_readDocument o text.toList c (Tree.mem_preorder_trans (List.mem_of_mem_filter hitem) ?_)
    rw [Tree.preorder_eq]
    exact .tail _ (Tree.mem_preorderList.2 ⟨c, hc, Tree.mem_preorder_self c⟩)
  refine ((List.forall₂_and_left _ _).2 ⟨hbounds, tellsSpread_readDocument o text.toList⟩).imp ?_
  rintro item lines ⟨hbounds, spread, checked, hcontent, hspread⟩
  refine ⟨spread, checked, by rw [Tree.content_map, hcontent], hspread.trans ?_⟩
  rw [Tree.children_map, exists_infix_map_iff (P := fun c d : Tree Position => c.kind ≠ .list ∧
    BlankBetween lines c.note.stop.offset d.note.start.offset)]
  refine exists_congr fun c => exists_congr fun d => and_congr_right fun hcd => ?_
  have hc := (hbounds c (hcd.subset (.head _))).2
  have hd := hbounds d (hcd.subset (.tail _ (.head _)))
  have hd := hd.1.trans hd.2
  rw [Tree.kind_map, Tree.note_map, Tree.note_map, Locator.stop_positionOf, Locator.start_positionOf, Locator.ofText,
    Nat.min_eq_left hc, Nat.min_eq_left hd]

/-- An item that holds a list and, behind a blank line, a paragraph has no flag. -/
theorem scan_spread_list :
    ∃ t item lines c d, (scan {} none "- - a\n\n  b").tree = some t ∧ t.items.head? = some item ∧
      (itemRows {} "- - a\n\n  b".toList).head? = some lines ∧ item.content = .listItem false none ∧
      [c, d] <:+: item.children ∧ BlankBetween lines c.note.stop.offset d.note.start.offset := by
  let list : Tree Position := .node ⟨⟨1, 3, 2⟩, ⟨1, 6, 5⟩⟩ (.list false none false)
    [.node ⟨⟨1, 3, 2⟩, ⟨1, 6, 5⟩⟩ (.listItem false none)
      [.node ⟨⟨1, 5, 4⟩, ⟨1, 6, 5⟩⟩ .paragraph [.node ⟨⟨1, 5, 4⟩, ⟨1, 6, 5⟩⟩ (.text "a") []]]]
  let paragraph : Tree Position :=
    .node ⟨⟨3, 3, 9⟩, ⟨3, 4, 10⟩⟩ .paragraph [.node ⟨⟨3, 3, 9⟩, ⟨3, 4, 10⟩⟩ (.text "b") []]
  refine ⟨_, .node ⟨⟨1, 1, 0⟩, ⟨3, 4, 10⟩⟩ (.listItem false none) [list, paragraph],
    [⟨['-', ' ', 'a'], 2⟩, ⟨[], 6⟩, ⟨['b'], 9⟩], list, paragraph, tree_scan _ _ _, ?_, ?_, rfl, List.infix_rfl,
    ⟨[], 6⟩, by simp, rfl, by decide, by decide⟩
  · decide +kernel
  · decide +kernel

end Scan

end MarkdownTree
