import MarkdownTree.Proofs.Alike
import MarkdownTree.Proofs.Located

/-!
# The limit on nesting

Where no more containers may be opened, a line that would open one is read as text.  When it is the first line of a
block there is a note on it, but it may also go on a paragraph that it would end otherwise, and nothing notes that
(`Setting.hides`).  A document without such notes is read as with a higher limit exactly when no line hides a container
in this way (`scan_nestingLimit`): if none does then both limits cut all lines into the same chunks
(`readBlocks_add`), and if some line does then the higher limit nests containers deeper than the lower one can
(`lt_nesting_readBlocks`, `nesting_readBlocks_le`).
-/

namespace MarkdownTree

/-! ### How deep containers are nested -/

namespace Tree

variable {α : Type u} {β : Type v}

mutual

/-- How deep quotes and lists are nested in a tree.  Leaves hold inline content, and this holds no containers. -/
def nesting : Tree α → Nat
  | node _ content children =>
    match content.kind with
    | .blockQuote | .list => nestingList children + 1
    | .root | .listItem => nestingList children
    | _ => 0

def nestingList : List (Tree α) → Nat
  | [] => 0
  | t :: ts => max (nesting t) (nestingList ts)

end

mutual

private theorem nesting_map (f : α → β) : ∀ t : Tree α, (t.map f).nesting = t.nesting
  | node _ _ children => by simp only [map, nesting, nestingList_mapList f children]

private theorem nestingList_mapList (f : α → β) : ∀ ts : List (Tree α), nestingList (mapList f ts) = nestingList ts
  | [] => rfl
  | t :: ts => by simp only [mapList, nestingList, nesting_map f t, nestingList_mapList f ts]

end

theorem nestingList_erase (ts : List (Tree α)) : nestingList (ts.map erase) = nestingList ts := by
  rw [← nestingList_mapList (fun _ => ()) ts, mapList_eq_map]
  rfl

theorem nestingList_le {ts : List (Tree α)} {n : Nat} : nestingList ts ≤ n ↔ ∀ t ∈ ts, t.nesting ≤ n := by
  induction ts with
  | nil => simp [nestingList]
  | cons t ts ih => rw [nestingList, Nat.max_le, ih, List.forall_mem_cons]

theorem nesting_le_nestingList {ts : List (Tree α)} {t : Tree α} (h : t ∈ ts) : t.nesting ≤ nestingList ts :=
  nestingList_le.1 (Nat.le_refl _) t h

end Tree

namespace Scan

/-! ### What stands in chunks -/

namespace Chunk

def isContainer : Chunk → Bool
  | .quote .. | .list .. => true
  | _ => false

/-- Blocks of inline content. -/
def isProse : Chunk → Bool
  | .heading .. | .paragraph .. => true
  | _ => false

/-- The rows of lines inside a container, and whether they are those of an item. -/
def rows : Chunk → List (Bool × List Line)
  | .quote _ lines => [(false, lines)]
  | .list _ items => items.map fun item => (true, item.lines)
  | _ => []

def notes : Chunk → List Note
  | .code _ _ _ _ notes | .heading _ _ _ notes | .paragraph _ _ notes => notes
  | _ => []

variable {c : Chunk}

theorem isContainer_of_mem_rows {r : Bool × List Line} (h : r ∈ c.rows) : c.isContainer = true := by
  cases c with
  | quote | list => rfl
  | _ => cases h

theorem rows_eq_nil (h : c.isContainer = false) : c.rows = [] := by
  cases c with
  | quote | list => cases h
  | _ => rfl

private theorem mem_notes_chunkTree {inner : Inner} {n : Note} (h : n ∈ c.notes) : n ∈ (chunkTree inner c).2 := by
  cases c with
  | code => exact h
  | heading | paragraph => exact List.mem_append_left _ h
  | rule | quote | list => cases h

private theorem mem_notes_rows {inner : Inner} {r : Bool × List Line} (h : r ∈ c.rows) {n : Note}
    (hn : n ∈ (inner r.1 r.2).notes) : n ∈ (chunkTree inner c).2 := by
  cases c with
  | quote =>
    cases List.mem_singleton.1 h
    exact hn
  | list marker items =>
    obtain ⟨item, hitem, rfl⟩ := List.mem_map.1 h
    simp only [chunkTree, List.flatMap_map]
    exact List.mem_flatMap.2 ⟨item, hitem, hn⟩
  | _ => cases h

theorem chunkTree_congr {inner other : Inner} (h : ∀ r ∈ c.rows, inner r.1 r.2 = other r.1 r.2) :
    chunkTree inner c = chunkTree other c := by
  cases c with
  | quote span lines => simp only [chunkTree, h (false, lines) (.head _)]
  | list marker items =>
    have hitems : items.map (itemTree inner) = items.map (itemTree other) :=
      List.map_congr_left fun item hitem => by
        unfold itemTree
        rw [h (true, item.lines) (List.mem_map.2 ⟨item, hitem, rfl⟩)]
    simp only [chunkTree, hitems]
  | _ => rfl

/-! A container is nested one deeper than what stands in it. -/

private theorem nesting_chunkTree_eq_zero {inner : Inner} (h : c.isContainer = false) :
    (chunkTree inner c).1.nesting = 0 := by
  cases c with
  | quote | list => cases h
  | _ => simp [chunkTree, Tree.nesting, Content.kind]

private theorem nesting_chunkTree_pos {inner : Inner} (h : c.isContainer = true) :
    0 < (chunkTree inner c).1.nesting := by
  cases c with
  | quote | list => simp [chunkTree, Tree.nesting, Content.kind]
  | _ => cases h

private theorem lt_nesting_chunkTree (inner : Inner) {r : Bool × List Line} (h : r ∈ c.rows) :
    Tree.nestingList (inner r.1 r.2).trees < (chunkTree inner c).1.nesting := by
  cases c with
  | quote =>
    cases List.mem_singleton.1 h
    simp [chunkTree, Tree.nesting, Content.kind]
  | list marker items =>
    obtain ⟨item, hitem, rfl⟩ := List.mem_map.1 h
    have hle : (itemTree inner item).1.nesting ≤ Tree.nestingList (items.map fun item => (itemTree inner item).1) :=
      Tree.nesting_le_nestingList (List.mem_map_of_mem hitem)
    simp only [itemTree, Tree.nesting, Content.kind] at hle
    simpa [chunkTree, Tree.nesting, Content.kind, Function.comp_def, itemTree, Nat.lt_succ_iff] using hle
  | _ => cases h

private theorem nesting_chunkTree_le {inner : Inner} {n : Nat}
    (h : ∀ r ∈ c.rows, Tree.nestingList (inner r.1 r.2).trees ≤ n) : (chunkTree inner c).1.nesting ≤ n + 1 := by
  cases c with
  | quote span lines => simpa [chunkTree, Tree.nesting, Content.kind] using h (false, lines) (.head _)
  | list marker items =>
    have hitems : Tree.nestingList (items.map fun item => (itemTree inner item).1) ≤ n := by
      refine Tree.nestingList_le.2 (List.forall_mem_map.2 fun item hitem => ?_)
      simpa [itemTree, Tree.nesting, Content.kind] using h (true, item.lines) (List.mem_map.2 ⟨item, hitem, rfl⟩)
    simpa [chunkTree, Tree.nesting, Content.kind, Function.comp_def] using hitems
  | _ => simp [chunkTree, Tree.nesting, Content.kind]

end Chunk

private theorem mem_notes_assemble {inner : Inner} {segments : List Segment} {seg : Segment} (h : seg ∈ segments)
    {n : Note}
    (hn : n ∈ (chunkTree inner seg.chunk).2) : n ∈ (assemble inner segments).notes :=
  List.mem_flatMap.2 ⟨_, List.mem_map_of_mem h, hn⟩

private theorem mem_trees_assemble (inner : Inner) {segments : List Segment} {seg : Segment} (h : seg ∈ segments) :
    (chunkTree inner seg.chunk).1 ∈ (assemble inner segments).trees :=
  List.mem_map_of_mem (List.mem_map_of_mem h)

private theorem assemble_congr {inner other : Inner} {segments : List Segment}
    (h : ∀ seg ∈ segments, ∀ r ∈ seg.chunk.rows, inner r.1 r.2 = other r.1 r.2) :
    assemble inner segments = assemble other segments := by
  have hblocks : (segments.map fun seg => chunkTree inner seg.chunk) =
      segments.map fun seg => chunkTree other seg.chunk :=
    List.map_congr_left fun seg hseg => Chunk.chunkTree_congr (h seg hseg)
  simp only [assemble, hblocks]

/-! ### Lines that would open containers -/

section

variable {α : Type} {p q : α → Bool} (hqp : ∀ x, q x = true → p x = true)
include hqp

private theorem takeWhile_eq_of_forall {as : List α} (h : ∀ x ∈ as.takeWhile p, q x = true) :
    as.takeWhile q = as.takeWhile p := by
  induction as with
  | nil => rfl
  | cons a as ih =>
    rw [List.takeWhile_cons] at h ⊢
    rw [List.takeWhile_cons]
    by_cases hp : p a = true
    · rw [if_pos hp] at h ⊢
      obtain ⟨ha, has⟩ := List.forall_mem_cons.1 h
      rw [if_pos ha, ih has]
    · rw [if_neg hp, if_neg fun hq => hp (hqp a hq)]

private theorem drop_takeWhile_of_exists {as : List α} (h : ∃ x ∈ as.takeWhile p, q x = false) :
    ∃ y rest, as.drop (as.takeWhile q).length = y :: rest ∧ p y = true ∧ q y = false := by
  induction as with
  | nil => simp at h
  | cons a as ih =>
    rw [List.takeWhile_cons]
    by_cases hq : q a = true
    · obtain ⟨x, hx, hxq⟩ := h
      rw [List.takeWhile_cons, if_pos (hqp a hq)] at hx
      rcases List.mem_cons.1 hx with rfl | hx
      · rw [hq] at hxq
        cases hxq
      · rw [if_pos hq]
        exact ih ⟨x, hx, hxq⟩
    · rw [if_neg hq]
      obtain ⟨x, hx, -⟩ := h
      rw [List.takeWhile_cons] at hx
      split at hx
      · rename_i hp
        exact ⟨a, as, rfl, hp, Bool.eq_false_iff.2 hq⟩
      · cases hx

end

namespace Setting

variable (s : Setting) (limit : Value)

/-- The setting in which containers are recognized. -/
def opened : Setting :=
  { s with containers := true }

/-- A line that goes on a paragraph, but would open a container if that were allowed. -/
def hides (l : Line) : Bool :=
  s.goesOn l && !s.opened.goesOn l

/-- Some line of a paragraph in the row would open a container if that were allowed. -/
def hidesAny : List Line → Bool
  | [] => false
  | l :: ls =>
    if l.isBlank then hidesAny ls
    else
      let (chunk, taken) := s.chunk limit l ls
      chunk.isProse && (ls.take taken).any s.hides || hidesAny (ls.drop taken)
termination_by ls => ls.length

private def opensLeaf (body : List Char) : Bool :=
  (headingDepth? body).isSome || isRule body || (Fence.opening? body).isSome

private def isMarked (l : Line) : Bool :=
  l.trimStart.text.head? == some '>' || (Marker.read? s.tab l).isSome

/-- A line with a quote mark or with a list marker that ends a paragraph. -/
private def endsByMark (l : Line) : Bool :=
  l.trimStart.text.head? == some '>' ||
    (Marker.read? s.tab l).any fun m => s.inItem || (!m.content.isBlank && (!m.ordered || m.number == some 1))

variable {s limit} {limit' : Value} {l : Line} {ls : List Line}

private theorem interrupts_iff : s.interrupts l = true ↔
    ¬4 ≤ l.indent s.tab ∧ (opensLeaf l.trimStart.text = true ∨ s.containers = true ∧ s.endsByMark l = true) := by
  unfold interrupts opensLeaf endsByMark
  dsimp only
  split_ifs with hindent hfirst hfence hcontainers hquote
  · simp [hindent]
  · simp [hindent, hfirst]
  · simp [hindent, hfence]
  · simp_all
  · simp_all
  · cases Marker.read? s.tab l <;> simp_all

private theorem isMarked_of_endsByMark (h : s.endsByMark l = true) : s.isMarked l = true := by
  unfold endsByMark at h
  unfold isMarked
  cases hread : Marker.read? s.tab l with
  | none => simpa [hread] using h
  | some m => simp

private theorem goesOn_of_opened (h : s.opened.goesOn l = true) : s.goesOn l = true := by
  unfold goesOn at h ⊢
  simp only [Bool.and_eq_true, Bool.not_eq_true'] at h ⊢
  refine ⟨h.1, Bool.eq_false_iff.2 fun hi => Bool.eq_false_iff.1 h.2 (interrupts_iff.2 ?_)⟩
  obtain ⟨hindent, hleaf⟩ := interrupts_iff.1 hi
  exact ⟨hindent, hleaf.imp_right fun hmark => ⟨rfl, hmark.2⟩⟩

private theorem marked_of_hides (h : s.hides l = true) :
    s.underline? l = none ∧ ¬4 ≤ l.indent s.tab ∧ opensLeaf l.trimStart.text = false ∧ s.isMarked l = true := by
  unfold hides goesOn at h
  simp only [Bool.and_eq_true, Bool.not_eq_true', Option.isNone_iff_eq_none] at h
  obtain ⟨⟨⟨hblank, hunder⟩, hno⟩, hyes⟩ := h
  rw [hblank, show s.opened.underline? l = s.underline? l from rfl, hunder] at hyes
  obtain ⟨hindent, hleaf⟩ := interrupts_iff.1 (show s.opened.interrupts l = true by simpa using hyes)
  have hnot := mt interrupts_iff.2 (Bool.eq_false_iff.1 hno)
  have hopens : opensLeaf l.trimStart.text = false := Bool.eq_false_iff.2 fun hopens => hnot ⟨hindent, .inl hopens⟩
  rcases hleaf with hleaf | ⟨-, hmark⟩
  · rw [hopens] at hleaf
    cases hleaf
  · exact ⟨hunder, hindent, hopens, isMarked_of_endsByMark hmark⟩

/-! ### Chunks with and without containers -/

theorem isContainer_paragraph (ns : List Note) : (s.paragraph ns l ls).1.isContainer = false := by
  unfold paragraph
  dsimp only
  split
  · split <;> rfl
  · rfl

private theorem isProse_paragraph (ns : List Note) : (s.paragraph ns l ls).1.isProse = true := by
  unfold paragraph
  dsimp only
  split
  · split <;> rfl
  · rfl

private theorem notes_paragraph (ns : List Note) : (s.paragraph ns l ls).1.notes = ns := by
  unfold paragraph
  dsimp only
  split
  · split <;> rfl
  · rfl

private theorem take_paragraph (ns : List Note) :
    ls.take (s.paragraph ns l ls).2 = ls.takeWhile s.goesOn ∨
      ∃ next, (s.underline? next).isSome ∧ ls.take (s.paragraph ns l ls).2 = ls.takeWhile s.goesOn ++ [next] := by
  have htake : ls.take (ls.takeWhile s.goesOn).length = ls.takeWhile s.goesOn :=
    List.prefix_iff_eq_take.1 (List.takeWhile_prefix _) |>.symm
  unfold paragraph
  dsimp only
  split
  · rename_i next hnext
    split
    · rename_i depth hdepth
      refine .inr ⟨next, by rw [hdepth]; rfl, ?_⟩
      dsimp only
      rw [List.take_add_one, htake, ← List.head?_drop, hnext]
      rfl
    · exact .inl htake
  · exact .inl htake

private theorem hides_iff : s.hides l = true ↔ s.goesOn l = true ∧ s.opened.goesOn l = false := by
  rw [hides, Bool.and_eq_true, Bool.not_eq_true']

/-- A paragraph hides a container exactly when a line goes on it that would open one. -/
private theorem any_hides_paragraph (ns : List Note) :
    (ls.take (s.paragraph ns l ls).2).any s.hides = true ↔ ∃ x ∈ ls.takeWhile s.goesOn, s.opened.goesOn x = false := by
  have hmore : (ls.takeWhile s.goesOn).any s.hides = true ↔ ∃ x ∈ ls.takeWhile s.goesOn, s.opened.goesOn x = false := by
    rw [List.any_eq_true]
    refine exists_congr fun x => and_congr_right fun hx => ?_
    rw [hides_iff, and_iff_right (List.mem_takeWhile_imp hx)]
  rcases s.take_paragraph ns with h | ⟨next, hnext, h⟩
  · rw [h, hmore]
  · have hlast : s.hides next = false := Bool.eq_false_iff.2 fun hides => by
      rw [(marked_of_hides hides).1] at hnext
      cases hnext
    rw [h, List.any_append, List.any_cons, hlast, List.any_nil, Bool.or_false, Bool.or_false, hmore]

/-- Code, headings with marks and rules are the same wherever they stand. -/
private theorem chunk_of_leaf (limit limit' : Value) (ls : List Line)
    (hleaf : 4 ≤ l.indent s.tab ∨ opensLeaf l.trimStart.text = true) :
    s.chunk limit l ls = s.opened.chunk limit' l ls ∧ (s.chunk limit l ls).1.isContainer = false ∧
      ((s.chunk limit l ls).1.isProse = true → (s.chunk limit l ls).2 = 0) := by
  unfold opensLeaf at hleaf
  unfold chunk
  dsimp only
  split
  · rename_i hindent
    rw [if_pos (show 4 ≤ l.indent s.opened.tab from hindent)]
    exact ⟨rfl, rfl, fun h => by cases h⟩
  rename_i hindent
  rw [if_neg (show ¬4 ≤ l.indent s.opened.tab from hindent)]
  cases hfence : Fence.opening? l.trimStart.text with
  | some fence =>
    refine ⟨rfl, ?_, fun h => ?_⟩ <;> (unfold fencedCode at *; dsimp only at *; split at *) <;> first | rfl | cases h
  | none =>
    cases hdepth : headingDepth? l.trimStart.text with
    | some depth => exact ⟨rfl, rfl, fun _ => rfl⟩
    | none =>
      dsimp only
      have hrule : isRule l.trimStart.text = true := by simpa [hindent, hfence, hdepth] using hleaf
      rw [if_pos hrule, if_pos hrule]
      exact ⟨rfl, rfl, fun h => by cases h⟩

section

variable (hindent : ¬4 ≤ l.indent s.tab) (hleaf : opensLeaf l.trimStart.text = false)
include hindent hleaf

/-- Any other line opens a container if that is allowed and it is marked, and a paragraph otherwise. -/
private theorem chunk_of_not_leaf (limit : Value) (ls : List Line) :
    (s.containers = true ∧ s.isMarked l = true ∧ (s.chunk limit l ls).1.isContainer = true) ∨
      (s.containers && s.isMarked l) = false ∧
        s.chunk limit l ls = s.paragraph (s.paragraphNotes limit l l.trimStart) l ls := by
  unfold opensLeaf at hleaf
  simp only [Bool.or_eq_false_iff, Option.isSome_eq_false_iff, Option.isNone_iff_eq_none] at hleaf
  obtain ⟨⟨hdepth, hrule⟩, hfence⟩ := hleaf
  unfold chunk isMarked
  dsimp only
  rw [if_neg hindent, hfence]
  dsimp only
  rw [hdepth]
  dsimp only
  rw [if_neg (Bool.eq_false_iff.1 hrule)]
  cases hcontainers : s.containers with
  | false => exact .inr ⟨rfl, rfl⟩
  | true =>
    cases hquote : l.trimStart.text.head? == some '>' with
    | true => exact .inl ⟨rfl, rfl, rfl⟩
    | false =>
      cases Marker.read? s.tab l with
      | none => exact .inr ⟨rfl, rfl⟩
      | some m => exact .inl ⟨rfl, rfl, rfl⟩

end

private theorem paragraph_opened (ns : List Note) (h : ∀ x ∈ ls.takeWhile s.goesOn, s.opened.goesOn x = true) :
    s.paragraph ns l ls = s.opened.paragraph ns l ls := by
  unfold paragraph
  rw [takeWhile_eq_of_forall (fun _ => goesOn_of_opened) h]
  rfl

private theorem drop_paragraph_opened (ns : List Note) (h : ∃ x ∈ ls.takeWhile s.goesOn, s.opened.goesOn x = false) :
    ∃ y rest, ls.drop (s.opened.paragraph ns l ls).2 = y :: rest ∧ s.hides y = true := by
  obtain ⟨y, rest, hdrop, hgoes, hends⟩ := drop_takeWhile_of_exists (fun _ => goesOn_of_opened) h
  have hhides := hides_iff.2 ⟨hgoes, hends⟩
  refine ⟨y, rest, ?_, hhides⟩
  unfold paragraph
  dsimp only
  rw [hdrop, List.head?_cons]
  dsimp only
  rw [show s.opened.underline? y = none from (marked_of_hides hhides).1]
  exact hdrop

/-- With containers, a line opens one where there is a note on nesting without, or it opens the same block as without,
or a paragraph that ends before a line which opens a container. -/
private theorem chunk_opened (hs : s.containers = false) (limit limit' : Value) (l : Line) (ls : List Line) :
    let hidden := (s.chunk limit l ls).1.isProse && (ls.take (s.chunk limit l ls).2).any s.hides
    ((s.opened.chunk limit' l ls).1.isContainer = true ∧
      ∃ n ∈ (s.chunk limit l ls).1.notes, n.anomaly = .nestingLimit limit) ∨
    ((s.opened.chunk limit' l ls).1.isContainer = false ∧ hidden = false ∧
      s.chunk limit l ls = s.opened.chunk limit' l ls) ∨
    ((s.opened.chunk limit' l ls).1.isContainer = false ∧ hidden = true ∧
      ∃ y rest, ls.drop (s.opened.chunk limit' l ls).2 = y :: rest ∧ s.hides y = true) := by
  intro hidden
  by_cases hleaf : 4 ≤ l.indent s.tab ∨ opensLeaf l.trimStart.text = true
  · obtain ⟨heq, hcontainer, htaken⟩ := chunk_of_leaf limit limit' ls hleaf
    refine .inr (.inl ⟨heq ▸ hcontainer, ?_, heq⟩)
    dsimp only [hidden]
    cases hprose : (s.chunk limit l ls).1.isProse with
    | false => rfl
    | true => rw [htaken hprose]; rfl
  simp only [not_or, Bool.not_eq_true] at hleaf
  obtain ⟨hindent, hleaf⟩ := hleaf
  have hclosed : s.chunk limit l ls = s.paragraph (s.paragraphNotes limit l l.trimStart) l ls := by
    rcases chunk_of_not_leaf hindent hleaf limit ls with ⟨h, -⟩ | ⟨-, h⟩
    · rw [hs] at h
      cases h
    · exact h
  rcases chunk_of_not_leaf (s := s.opened) hindent hleaf limit' ls with
    ⟨-, hmark, hcontainer⟩ | ⟨hmark, hopened⟩
  · refine .inl ⟨hcontainer, ⟨.nestingLimit limit, ⟨l.trimStart.offset, l.trimStart.stop⟩⟩, ?_, rfl⟩
    have hmark : s.isMarked l = true := hmark
    unfold isMarked at hmark
    rw [hclosed, notes_paragraph, paragraphNotes]
    simp [hs, hmark]
  · have hmark : s.isMarked l = false := hmark
    have hnotes : s.paragraphNotes limit l l.trimStart = s.opened.paragraphNotes limit' l l.trimStart := by
      unfold isMarked at hmark
      simp [paragraphNotes, hmark, opened]
    have hcontainer : (s.opened.chunk limit' l ls).1.isContainer = false := by rw [hopened, isContainer_paragraph]
    dsimp only [hidden]
    rw [hclosed, isProse_paragraph, Bool.true_and]
    by_cases hhides : ∃ x ∈ ls.takeWhile s.goesOn, s.opened.goesOn x = false
    · refine .inr (.inr ⟨hcontainer, (any_hides_paragraph _).2 hhides, ?_⟩)
      rw [hopened]
      exact drop_paragraph_opened _ hhides
    · refine .inr (.inl ⟨hcontainer, Bool.eq_false_iff.2 (mt (any_hides_paragraph _).1 hhides), ?_⟩)
      rw [hopened, hnotes]
      exact paragraph_opened _ (by simpa using hhides)

private theorem isContainer_of_hides (h : s.hides l = true) : (s.opened.chunk limit' l ls).1.isContainer = true := by
  obtain ⟨-, hindent, hleaf, hmark⟩ := marked_of_hides h
  rcases chunk_of_not_leaf (s := s.opened) hindent hleaf limit' ls with ⟨-, -, h⟩ | ⟨h, -⟩
  · exact h
  · rw [show s.opened.isMarked l = true from hmark] at h
    cases h

theorem isContainer_chunk (hs : s.containers = false) (limit : Value) (l : Line) (ls : List Line) :
    (s.chunk limit l ls).1.isContainer = false := by
  by_cases hleaf : 4 ≤ l.indent s.tab ∨ opensLeaf l.trimStart.text = true
  · exact (chunk_of_leaf limit limit ls hleaf).2.1
  · simp only [not_or, Bool.not_eq_true] at hleaf
    rcases chunk_of_not_leaf hleaf.1 hleaf.2 limit ls with ⟨h, -⟩ | ⟨-, h⟩
    · rw [hs] at h
      cases h
    · rw [h, isContainer_paragraph]

private theorem hides_not_blank (h : s.hides l = true) : l.isBlank = false :=
  s.not_blank_of_goesOn (hides_iff.1 h).1

private theorem exists_container (hs : s.containers = false) (h : s.hidesAny limit ls = true) (limit' : Value)
    (gap : Bool) :
    ∃ seg ∈ s.opened.segments limit' gap ls, seg.chunk.isContainer = true := by
  fun_induction s.hidesAny limit ls generalizing gap with
  | case1 => cases h
  | case2 l ls hl ih =>
    rw [segments, if_pos hl]
    exact ih h true
  | case3 l ls hl chunk taken hchunk ih =>
    rw [segments, if_neg hl]
    dsimp only
    have hcases := chunk_opened hs limit limit' l ls
    rw [hchunk] at hcases
    dsimp only at hcases
    rcases hcases with ⟨hcontainer, -⟩ | ⟨-, hhidden, heq⟩ | ⟨-, -, y, rest, hdrop, hhides⟩
    · exact ⟨_, .head _, hcontainer⟩
    · rw [hhidden, Bool.false_or] at h
      obtain ⟨seg, hseg, hcontainer⟩ := ih h false
      rw [← heq]
      exact ⟨seg, .tail _ hseg, hcontainer⟩
    · refine ⟨⟨false, (s.opened.chunk limit' y rest).1⟩, .tail _ ?_, isContainer_of_hides hhides⟩
      rw [hdrop, segments, if_neg (Bool.eq_false_iff.1 (hides_not_blank hhides))]
      exact .head _

/-- A row that hides no container, and on which nothing about nesting is noted, is cut alike where containers are
allowed, and has none. -/
private theorem segments_opened (hs : s.containers = false) (h : s.hidesAny limit ls = false) (limit' : Value)
    (gap : Bool)
    (hnotes : ∀ seg ∈ s.segments limit gap ls, ∀ n ∈ seg.chunk.notes, n.anomaly ≠ .nestingLimit limit) :
    s.segments limit gap ls = s.opened.segments limit' gap ls ∧
      ∀ seg ∈ s.segments limit gap ls, seg.chunk.isContainer = false := by
  fun_induction s.hidesAny limit ls generalizing gap with
  | case1 => simp [segments]
  | case2 l ls hl ih =>
    rw [segments, if_pos hl] at hnotes ⊢
    rw [segments, if_pos hl]
    exact ih h true hnotes
  | case3 l ls hl chunk taken hchunk ih =>
    rw [segments, if_neg hl] at hnotes ⊢
    rw [segments, if_neg hl]
    dsimp only at hnotes ⊢
    rw [hchunk] at hnotes ⊢
    have hcases := chunk_opened hs limit limit' l ls
    rw [hchunk] at hcases
    dsimp only at hcases hnotes ⊢
    obtain ⟨hfirst, hothers⟩ := List.forall_mem_cons.1 hnotes
    rw [Bool.or_eq_false_iff] at h
    rcases hcases with ⟨-, n, hn, hnote⟩ | ⟨hcontainer, -, heq⟩ | ⟨-, hhidden, -⟩
    · exact absurd hnote (hfirst n hn)
    · obtain ⟨hrest, hnone⟩ := ih h.2 false hothers
      rw [← heq] at hcontainer ⊢
      exact ⟨by rw [hrest], List.forall_mem_cons.2 ⟨hcontainer, hnone⟩⟩
    · rw [h.1] at hhidden
      cases hhidden

theorem isContainer_segments (hs : s.containers = false) {gap : Bool} :
    ∀ seg ∈ s.segments limit gap ls, seg.chunk.isContainer = false := by
  intro seg hseg
  obtain ⟨l, rest, -, -, hchunk⟩ := s.exists_chunk_of_mem_segments hseg
  rw [hchunk, isContainer_chunk hs limit l rest]

private theorem segments_limit (hs : s.containers = true) (limit' : Value) (gap : Bool) (ls : List Line) :
    s.segments limit gap ls = s.segments limit' gap ls := by
  have hchunk (l : Line) (ls : List Line) : s.chunk limit l ls = s.chunk limit' l ls := by
    unfold chunk paragraphNotes
    simp only [hs, Bool.not_true, Bool.false_and, Bool.false_eq_true, if_false]
  fun_induction s.segments limit gap ls with
  | case1 => rw [segments]
  | case2 gap l ls hl ih => rw [segments, if_pos hl, ih]
  | case3 gap l ls hl chunk taken heq ih => rw [segments, if_neg hl, ← hchunk, heq, ih]

end Setting

/-! ### Two limits -/

variable (o : ScanOptions)

/-- Some line, in a row in which so many containers may still be opened, goes on a paragraph in the innermost of them
and would open one more. -/
def hidesContainer : Nat → Bool → List Line → Bool
  | 0, inItem, lines => Setting.hidesAny ⟨o.tabSize, false, inItem⟩ o.nestingLimit lines
  | room + 1, inItem, lines =>
    (Setting.segments ⟨o.tabSize, true, inItem⟩ o.nestingLimit false lines).any fun seg =>
      seg.chunk.rows.any fun r => hidesContainer room r.1 r.2

theorem nesting_readBlocks_le (room : Nat) (inItem : Bool) (lines : List Line) :
    Tree.nestingList (readBlocks o room inItem lines).trees ≤ room := by
  induction room generalizing inItem lines with
  | zero =>
    refine Tree.nestingList_le.2 fun t ht => ?_
    simp only [readBlocks, assemble, List.map_map, List.mem_map, Function.comp_apply] at ht
    obtain ⟨seg, hseg, rfl⟩ := ht
    rw [Chunk.nesting_chunkTree_eq_zero (Setting.isContainer_segments rfl seg hseg)]
  | succ room ih =>
    refine Tree.nestingList_le.2 fun t ht => ?_
    simp only [readBlocks, assemble, List.map_map, List.mem_map, Function.comp_apply] at ht
    obtain ⟨seg, -, rfl⟩ := ht
    exact Chunk.nesting_chunkTree_le fun r _ => ih r.1 r.2

variable {o} {p : ScanOptions} (htab : o.tabSize = p.tabSize)
include htab

/-- Where a container is hidden, a higher limit nests deeper than the lower one has room for. -/
theorem lt_nesting_readBlocks {room : Nat} (more : Nat) {inItem : Bool} {lines : List Line}
    (h : hidesContainer o room inItem lines = true) :
    room < Tree.nestingList (readBlocks p (room + more + 1) inItem lines).trees := by
  induction room generalizing inItem lines with
  | zero =>
    obtain ⟨seg, hseg, hcontainer⟩ := Setting.exists_container rfl h p.nestingLimit false
    rw [readBlocks, ← htab]
    have hle := Tree.nesting_le_nestingList (mem_trees_assemble (readBlocks p (0 + more)) hseg)
    exact Nat.lt_of_lt_of_le (Chunk.nesting_chunkTree_pos hcontainer) hle
  | succ room ih =>
    rw [hidesContainer, List.any_eq_true] at h
    obtain ⟨seg, hseg, h⟩ := h
    obtain ⟨r, hr, h⟩ := List.any_eq_true.1 h
    rw [Setting.segments_limit rfl p.nestingLimit, htab] at hseg
    rw [readBlocks]
    have hle := Tree.nesting_le_nestingList (mem_trees_assemble (readBlocks p (room + 1 + more)) hseg)
    have hlt := Chunk.lt_nesting_chunkTree (readBlocks p (room + 1 + more)) hr
    have hrow := ih h
    rw [show room + more + 1 = room + 1 + more by omega] at hrow
    omega

/-- Where no container is hidden and nothing about nesting is noted, a higher limit reads the same. -/
theorem readBlocks_add {room : Nat} (more : Nat) {inItem : Bool} {lines : List Line}
    (h : hidesContainer o room inItem lines = false)
    (hnotes : ∀ n ∈ (readBlocks o room inItem lines).notes, n.anomaly ≠ .nestingLimit o.nestingLimit) :
    readBlocks p (room + more + 1) inItem lines = readBlocks o room inItem lines := by
  induction room generalizing inItem lines with
  | zero =>
    obtain ⟨hsegments, hnone⟩ := Setting.segments_opened rfl h p.nestingLimit false
      fun seg hseg n hn => hnotes n (mem_notes_assemble hseg (Chunk.mem_notes_chunkTree hn))
    rw [readBlocks, readBlocks, ← htab]
    rw [show Setting.segments ⟨o.tabSize, true, inItem⟩ p.nestingLimit false lines = _ from hsegments.symm]
    exact assemble_congr fun seg hseg r hr => by rw [Chunk.rows_eq_nil (hnone seg hseg)] at hr; cases hr
  | succ room ih =>
    rw [hidesContainer, List.any_eq_false] at h
    rw [readBlocks] at hnotes
    rw [show room + 1 + more + 1 = room + more + 1 + 1 by omega, readBlocks, readBlocks, ← htab,
      Setting.segments_limit rfl o.nestingLimit]
    refine assemble_congr fun seg hseg r hr => ih ?_ fun n hn => ?_
    · exact Bool.eq_false_iff.2 fun hrow => h seg hseg (List.any_eq_true.2 ⟨r, hr, hrow⟩)
    · exact hnotes n (mem_notes_assemble hseg (Chunk.mem_notes_rows hr hn))

omit htab

/-- Some line of a text goes on a paragraph in containers as deep as is allowed, and would open one more. -/
def HidesContainer (o : ScanOptions) (text : List Char) : Prop :=
  hidesContainer o o.maxNesting false (splitDocument o.frontMatter text).2 = true

instance (o : ScanOptions) (text : List Char) : Decidable (HidesContainer o text) :=
  inferInstanceAs (Decidable (_ = true))

/-- A scan that warns of no containers nested too deep has the structure that a higher limit gives exactly when no line
hides a container. -/
theorem scan_nestingLimit {o p : ScanOptions} (htab : o.tabSize = p.tabSize) (hfront : o.frontMatter = p.frontMatter)
    (hle : o.maxNesting ≤ p.maxNesting) (path : Option String) (text : String)
    (hquiet : ∀ d ∈ (scan o path text).warnings, d.rule ≠ some "nesting-limit") :
    ∃ t u, (scan o path text).tree = some t ∧ (scan p path text).tree = some u ∧
      (t.erase = u.erase ↔ o.maxNesting = p.maxNesting ∨ ¬HidesContainer o text.toList) := by
  refine ⟨_, _, tree_scan o path text, tree_scan p path text, ?_⟩
  have hnotes : ∀ n ∈ (readDocument o text.toList).notes, n.anomaly ≠ .nestingLimit o.nestingLimit := by
    intro n hn heq
    refine hquiet _ (List.mem_map_of_mem hn) ?_
    simp only [Note.diagnostic, heq, Anomaly.rule]
  rw [Tree.erase_map, Tree.erase_map]
  rw [readDocument_eq] at hnotes ⊢
  rw [readDocument_eq p, ← hfront]
  obtain ⟨more, hmore⟩ := Nat.exists_eq_add_of_le hle
  cases more with
  | zero =>
    -- With one limit, there is nothing between the scans but the number in their warnings.
    have hsame := (alike_readBlocks (f := fun _ => ()) htab rfl o.maxNesting false _ _
      (Line.forall₂_alike_iff.2 (rfl : (splitDocument o.frontMatter text.toList).2.map Line.text = _))).trees
    rw [hmore, Nat.add_zero]
    simp only [Tree.erase_node, List.map_append, hsame, true_or]
  | succ more =>
    rw [hmore, ← Nat.add_assoc]
    have hne : ¬o.maxNesting = o.maxNesting + more + 1 := by omega
    rw [or_iff_right hne]
    by_cases hhides : HidesContainer o text.toList
    · have hlt := lt_nesting_readBlocks htab more hhides
      have hroom := nesting_readBlocks_le o o.maxNesting false (splitDocument o.frontMatter text.toList).2
      refine ⟨fun heq => ?_, fun h => absurd hhides h⟩
      simp only [Tree.erase_node, List.map_append, Tree.node.injEq, true_and, List.append_cancel_left_eq] at heq
      have hnesting := congrArg Tree.nestingList heq
      rw [Tree.nestingList_erase, Tree.nestingList_erase] at hnesting
      omega
    · rw [readBlocks_add htab more (Bool.eq_false_iff.2 hhides) hnotes]
      simp only [Tree.erase_node, hhides, not_false_eq_true]

/-- The second line opens a quote in the quote, but with room for one it goes on the paragraph, without a warning. -/
theorem scan_nestingLimit_quote :
    (scan { maxNesting := 1 } none "> a\n> > b").warnings = [] ∧
      (scan { maxNesting := 1 } none "> a\n> > b").tree.map Tree.erase ≠
        (scan { maxNesting := 2 } none "> a\n> > b").tree.map Tree.erase := by
  decide +kernel

/-- A quote within the limit of one. -/
theorem scan_nestingLimit_within :
    (∀ d ∈ (scan { maxNesting := 1 } none "> a\nb").warnings, d.rule ≠ some "nesting-limit") ∧
      ¬HidesContainer { maxNesting := 1 } "> a\nb".toList ∧
      ∃ t u, (scan { maxNesting := 1 } none "> a\nb").tree = some t ∧
        (scan { maxNesting := 2 } none "> a\nb").tree = some u ∧
        (t.erase = u.erase ↔ 1 = 2 ∨ ¬HidesContainer { maxNesting := 1 } "> a\nb".toList) :=
  have hquiet : ∀ d ∈ (scan { maxNesting := 1 } none "> a\nb").warnings, d.rule ≠ some "nesting-limit" := by
    decide +kernel
  ⟨hquiet, by decide +kernel,
    scan_nestingLimit (o := { maxNesting := 1 }) (p := { maxNesting := 2 }) rfl rfl (by decide) none _ hquiet⟩

end Scan

end MarkdownTree
