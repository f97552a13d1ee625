import MarkdownTree.Proofs.Chunk
import MarkdownTree.Scan.Document

/-!
# Documents are regular

Blocks that are read from lines stand between the places between which the lines fit, one after the other, and all their
nodes are regular (`Flow`).  This is so for the node of a chunk when it is for what stands inside (`flow_chunkTree`), so
it is at any depth (`flow_readBlocks`), and all nodes of a document are regular (`regular_readDocument`).
-/

namespace MarkdownTree.Scan

open Text

/-- Blocks between two places of a source, with regular nodes. -/
structure Flow (source : List Char) (lo : Nat) (ts : List (Tree Span)) (hi : Nat) : Prop where
  between : Between lo (ts.map Tree.note) hi
  flow : ∀ t ∈ ts, t.kind.isFlow
  regular : ∀ t ∈ ts, ∀ u ∈ t.preorder, Regular source u

variable {source : List Char} {lo mid hi : Nat}

namespace Flow

theorem nil (h : lo ≤ hi) : Flow source lo [] hi :=
  ⟨h, by simp, by simp⟩

theorem append {ts us : List (Tree Span)} (hts : Flow source lo ts mid) (hus : Flow source mid us hi) :
    Flow source lo (ts ++ us) hi := by
  refine ⟨?_, List.forall_mem_append.2 ⟨hts.flow, hus.flow⟩, List.forall_mem_append.2 ⟨hts.regular, hus.regular⟩⟩
  rw [List.map_append]
  exact hts.between.append hus.between

private theorem singleton {t : Tree Span} (hlo : lo ≤ t.note.start) (hle : t.note.start ≤ t.note.stop)
    (hhi : t.note.stop ≤ hi)
    (hflow : t.kind.isFlow) (hregular : ∀ u ∈ t.preorder, Regular source u) : Flow source lo [t] hi :=
  ⟨⟨hlo, hle, hhi⟩, by simpa using hflow, by simpa using hregular⟩

theorem kinds {ts : List (Tree Span)} (h : Flow source lo ts hi) : ∀ c ∈ ts.map Tree.content, c.kind.isFlow :=
  List.forall_mem_map.2 h.flow

end Flow

/-- The blocks inside containers stand where the lines of these fit. -/
def Inner.Flows (source : List Char) (inner : Inner) : Prop :=
  ∀ inItem ls lo hi, Line.Fit source lo ls hi → Flow source lo (inner inItem ls).trees hi

/-! ### The nodes of chunks -/

section

variable {inner : Inner} (hinner : inner.Flows source)
include hinner

private theorem items_between {items : List ItemChunk} (h : ItemsWithin source lo items hi) :
    Between lo (items.map fun item => (itemTree inner item).1.note) hi ∧
      ∀ item ∈ items, ∀ u ∈ (itemTree inner item).1.preorder, Regular source u := by
  induction items generalizing lo with
  | nil => exact ⟨h, by simp⟩
  | cons item items ih =>
    obtain ⟨hlo, hfit, hrest⟩ := h
    obtain ⟨hbetween, hregular⟩ := ih hrest
    have hblocks := hinner true item.lines _ _ hfit
    refine ⟨⟨hlo, hfit.le, hbetween⟩, List.forall_mem_cons.2 ⟨?_, hregular⟩⟩
    exact regular_node hblocks.between hblocks.kinds (by simp [Content.kind]) hblocks.regular

end

theorem ItemsWithin.last {items : List ItemChunk} (h : ItemsWithin source lo items hi) {last : ItemChunk}
    (hlast : items.getLast? = some last) : ItemsWithin source lo items last.stop ∧ last.stop ≤ hi := by
  induction items generalizing lo with
  | nil => cases hlast
  | cons item items ih =>
    obtain ⟨hlo, hfit, hrest⟩ := h
    cases items with
    | nil =>
      cases hlast
      exact ⟨⟨hlo, hfit, Nat.le_refl _⟩, hrest⟩
    | cons next items =>
      obtain ⟨hitems, hle⟩ := ih hrest (by simpa using hlast)
      exact ⟨⟨hlo, hfit, hitems⟩, hle⟩

/-- The node of a chunk. -/
theorem flow_chunkTree {inner : Inner} (hinner : inner.Flows source) {c : Chunk} (h : c.Within source lo hi) :
    Flow source lo [(chunkTree inner c).1] hi := by
  cases c with
  | code span value lang details notes =>
    obtain ⟨hlo, hle, hhi, hlang, hdetails⟩ := h
    refine .singleton hlo hle hhi rfl (regular_leaf hle ⟨rfl, ?_, ?_⟩ (by simp [Content.kind]))
    · intro l hl
      obtain ⟨cs, hcs, rfl⟩ := Option.map_eq_some_iff.1 hl
      simpa using hlang cs hcs
    · intro hnone
      rw [optionText, hdetails (Option.map_eq_none_iff.1 hnone)]
      rfl
  | heading span depth lines notes =>
    obtain ⟨hlo, hphrase, hhi, hone, hsix⟩ := h
    refine .singleton hlo hphrase.between.le hhi rfl ?_
    exact regular_node hphrase.between ⟨hphrase.phrasing, by omega, by omega⟩ (by simp [Content.kind]) hphrase.regular
  | paragraph span lines notes =>
    obtain ⟨hlo, hphrase, hhi, hne⟩ := h
    refine .singleton hlo hphrase.between.le hhi rfl ?_
    exact regular_node hphrase.between ⟨hphrase.phrasing, by simpa using hne⟩ (by simp [Content.kind]) hphrase.regular
  | rule span =>
    obtain ⟨hlo, hle, hhi⟩ := h
    exact .singleton hlo hle hhi rfl (regular_leaf hle rfl (by simp [Content.kind]))
  | quote span lines =>
    obtain ⟨hlo, hfit, hhi⟩ := h
    have hblocks := hinner false lines _ _ hfit
    refine .singleton hlo hfit.le hhi rfl ?_
    exact regular_node hblocks.between hblocks.kinds (by simp [Content.kind]) hblocks.regular
  | list marker items =>
    obtain ⟨hne, hnumber, hlo, hitems⟩ := h
    obtain ⟨last, hlast⟩ : ∃ last, items.getLast? = some last := ⟨_, List.getLast?_eq_some_getLast hne⟩
    -- The list ends with its last item, which may come before the lines that it takes end.
    obtain ⟨hwithin, hstop⟩ := hitems.last hlast
    obtain ⟨hbetween, hregular⟩ := items_between hinner hwithin
    simp only [chunkTree, hlast, Option.map_some, Option.getD_some]
    refine .singleton hlo hbetween.le hstop rfl (regular_node ?_ ⟨?_, ?_, ?_, ?_⟩ (by simp [Content.kind]) ?_)
    · simpa only [List.map_map, Function.comp_def] using hbetween
    · simpa using hne
    · simp [itemTree, Tree.content, Content.kind]
    · cases hk : marker.number <;> simp [Marker.ordered, hk]
    · intro n hn
      cases hk : marker.number with
      | none => simp [hk] at hn
      | some k =>
        have hle := hnumber k hk
        have heq : (k : Int) = n := by simpa [hk] using hn
        omega
    · simpa using hregular

theorem trees_assemble (inner : Inner) (segments : List Segment) :
    (assemble inner segments).trees = (segments.map Segment.chunk).map fun c => (chunkTree inner c).1 := by
  simp only [assemble, List.map_map, Function.comp_def]

theorem notes_assemble (inner : Inner) (segments : List Segment) :
    (assemble inner segments).notes = (segments.map Segment.chunk).flatMap fun c => (chunkTree inner c).2 := by
  simp only [assemble, List.flatMap_map]

/-- The blocks of segments come one after the other. -/
private theorem flow_assemble {inner : Inner} (hinner : inner.Flows source) {segments : List Segment}
    (h : SegmentsWithin source lo segments hi) : Flow source lo (assemble inner segments).trees hi := by
  induction segments generalizing lo with
  | nil => exact .nil h
  | cons s segments ih =>
    obtain ⟨mid, hchunk, hrest⟩ := h
    exact (flow_chunkTree hinner hchunk).append (ih hrest)

/-- A row of lines is read by putting together what its chunks are, in one way for all rows. -/
theorem readBlocks_eq_assemble (o : ScanOptions) (room : Nat) (inItem : Bool) : ∃ (inner : Inner) (s : Setting),
    ∀ ls, readBlocks o room inItem ls = assemble inner (s.segments o.nestingLimit false ls) := by
  cases room with
  | zero => exact ⟨_, _, fun _ => by rw [readBlocks]⟩
  | succ room => exact ⟨_, _, fun _ => by rw [readBlocks]⟩

/-- Lines are read as blocks that stand where they fit, however many containers may still be opened. -/
theorem flow_readBlocks (o : ScanOptions) (room : Nat) : (readBlocks o room).Flows source := by
  induction room with
  | zero =>
    intro inItem ls lo hi h
    exact flow_assemble (fun _ _ _ _ hfit => .nil hfit.le) (Setting.within_segments _ _ _ _ h)
  | succ room ih =>
    intro inItem ls lo hi h
    exact flow_assemble ih (Setting.within_segments _ _ _ _ h)

/-! ### Front matter -/

theorem splitFrontMatter?_eq_some {ls inner rest : List Line} {closing : Line}
    (h : splitFrontMatter? ls = some (inner, closing, rest)) : ls = inner ++ closing :: rest := by
  induction ls generalizing inner with
  | nil => cases h
  | cons l ls ih =>
    unfold splitFrontMatter? at h
    split at h
    · cases h
      rfl
    · obtain ⟨⟨inner', closing', rest'⟩, hsplit, heq⟩ := Option.map_eq_some_iff.1 h
      cases heq
      rw [ih hsplit]
      rfl

/-- Front matter stands before the lines after it. -/
theorem frontMatter?_eq_some {ls rest : List Line} {t : Tree Span} (h : frontMatter? ls = some (t, rest))
    (hfit : Line.Fit source lo ls source.length) :
    t.kind = .frontMatter ∧ lo ≤ t.note.start ∧ t.note.start ≤ t.note.stop ∧
      (∀ u ∈ t.preorder, Regular source u) ∧ Line.Fit source t.note.stop rest source.length := by
  unfold frontMatter? at h
  split at h
  · cases h
  · rename_i l ls
    split at h
    · obtain ⟨⟨inner, closing, rest'⟩, hsplit, heq⟩ := Option.map_eq_some_iff.1 h
      cases heq
      cases splitFrontMatter?_eq_some hsplit
      obtain ⟨hl, hrest⟩ := List.pairwise_cons.1 hfit.apart
      have hclosing := hl closing (by simp)
      have hle : l.offset ≤ closing.stop := by
        have : l.offset ≤ l.stop := Nat.le_add_right _ _
        have : closing.offset ≤ closing.stop := Nat.le_add_right _ _
        omega
      refine ⟨rfl, hfit.above l (.head _), hle, regular_leaf hle rfl (by simp [Content.kind]), ?_⟩
      -- The other lines come after the closing one, so they fit from its end on.
      have hsub : List.Sublist rest (l :: (inner ++ closing :: rest)) :=
        ((List.sublist_cons_self closing rest).trans (List.sublist_append_right inner _)).cons l
      refine (hfit.sublist hsub).between (hfit.stands closing (by simp)).2 (fun x hx => ?_) ?_
      · exact Nat.le_of_lt (List.rel_of_pairwise_cons (List.pairwise_append.1 hrest).2.1 hx)
      · exact (hfit.sublist hsub).below
    · cases h

/-! ### Documents -/

/-- The front matter of a text, if that is looked for and there, and the lines after it. -/
def splitDocument (front : Bool) (text : List Char) : List (Tree Span) × List Line :=
  match if front then frontMatter? (linesOf text) else none with
  | some (node, rest) => ([node], rest)
  | none => ([], linesOf text)

theorem readDocument_eq (o : ScanOptions) (text : List Char) :
    readDocument o text =
      ⟨.node ⟨0, text.length⟩ .root ((splitDocument o.frontMatter text).1 ++
          (readBlocks o o.maxNesting false (splitDocument o.frontMatter text).2).trees),
        (readBlocks o o.maxNesting false (splitDocument o.frontMatter text).2).notes⟩ := by
  cases hfront : (if o.frontMatter then frontMatter? (linesOf text) else none) <;>
    simp only [readDocument, splitDocument, hfront]

/-- A document has front matter, if that is looked for, and then blocks. -/
theorem readDocument_children (o : ScanOptions) (text : List Char) :
    ∃ front blocks mid, (readDocument o text).tree.children = front ++ blocks ∧ Flow text mid blocks text.length ∧
      Between 0 (front.map Tree.note) mid ∧ (∀ t ∈ front, ∀ u ∈ t.preorder, Regular text u) ∧
      (front = [] ∨ o.frontMatter = true ∧ ∃ t, front = [t] ∧ t.kind = .frontMatter) := by
  have hfit := Line.fit_linesOf text
  unfold readDocument
  dsimp only
  cases hfront : if o.frontMatter then frontMatter? (linesOf text) else none with
  | none =>
    exact ⟨[], _, 0, rfl, flow_readBlocks o _ _ _ _ _ hfit, Nat.le_refl 0, by simp, .inl rfl⟩
  | some found =>
    obtain ⟨t, rest⟩ := found
    split at hfront
    · rename_i ho
      obtain ⟨hkind, -, hle, hregular, hrest⟩ := frontMatter?_eq_some hfront hfit
      exact ⟨[t], _, _, rfl, flow_readBlocks o _ _ _ _ _ hrest, ⟨Nat.zero_le _, hle, Nat.le_refl _⟩,
        by simpa using hregular, .inr ⟨ho, t, rfl, hkind⟩⟩
    · cases hfront

/-- All nodes of a document are regular. -/
theorem regular_readDocument (o : ScanOptions) (text : List Char) :
    ∀ u ∈ (readDocument o text).tree.preorder, Regular text u := by
  obtain ⟨front, blocks, mid, hchildren, hblocks, hfront, hregular, hkinds⟩ := readDocument_children o text
  rw [Tree.forall_mem_preorder, hchildren, List.forall_mem_append]
  refine ⟨⟨?_, ?_, .of_kind (by simp [readDocument, Tree.kind, Tree.content, Content.kind])⟩, hregular, hblocks.regular⟩
  · rw [hchildren, List.map_append]
    exact hfront.append hblocks.between
  · rw [hchildren, List.map_append]
    rcases hkinds with rfl | ⟨-, t, rfl, hkind⟩
    · exact ⟨fun c hc => .inr (hblocks.kinds c (List.mem_of_head? hc)),
        fun c hc => hblocks.kinds c (List.mem_of_mem_tail hc)⟩
    · refine ⟨fun c hc => .inl ?_, hblocks.kinds⟩
      cases hc
      exact hkind

end MarkdownTree.Scan
