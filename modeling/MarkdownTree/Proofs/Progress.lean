import Mathlib.Algebra.BigOperators.Ring.List
import Mathlib.Algebra.Order.BigOperators.Group.List
import Mathlib.Algebra.Order.Ring.Nat
import Mathlib.Tactic.Choose
import MarkdownTree.Proofs.Spread
import MarkdownTree.Proofs.Taken

/-!
# Progress of reading

A row of lines is read in rounds: a blank line is passed over, and any other line opens a chunk, which takes this line and
some of those that follow.  The rows inside a chunk are read in turn, one level deeper (`Rounds`).  Every chunk makes
progress (`progress_chunk`), and what stands in a container is no more than the container takes, so all levels together
need at most as many rounds as there are lines on each of them (`Rounds.count_le`).  The rounds come to an end
(`exists_rounds`) with the blocks that the row reads as (`Rounds.blocks_eq`), and on no way down the tree of a document
there are more quotes and lists than the limit allows (`scan_rounds`).
-/

namespace MarkdownTree

/-- The kinds of blocks of which only so many may be nested. -/
def Kind.isLimited : Kind → Bool
  | blockQuote | list => true
  | _ => false

private theorem Kind.holdsBlocks_of_isLimited {k : Kind} (h : k.isLimited = true) : k.holdsBlocks = true := by
  cases k with
  | blockQuote | list => rfl
  | _ => cases h

namespace Tree

variable {α : Type u} {β : Type v} {t u : Tree α} {p : List (Tree α)}

/-! ### Ways down a tree -/

/-- The nodes on the way from the top of a tree down to a node, both included. -/
inductive Way : Tree α → List (Tree α) → Prop
  | stop (t : Tree α) : Way t [t]
  | down {t s : Tree α} {p : List (Tree α)} (hs : s ∈ t.children) (hp : Way s p) : Way t (t :: p)

theorem Way.subset (h : Way t p) : ∀ u ∈ p, u ∈ t.preorder := by
  induction h with
  | stop t => exact List.forall_mem_singleton.2 (mem_preorder_self t)
  | down hs _ ih =>
    refine List.forall_mem_cons.2 ⟨mem_preorder_self _, fun u hu => ?_⟩
    rw [preorder_eq, descendants]
    exact .tail _ (mem_preorderList.2 ⟨_, hs, ih u hu⟩)

mutual

private theorem exists_way : ∀ {t u : Tree α}, u ∈ t.preorder → ∃ p, Way t p ∧ p.getLast? = some u
  | node n c children, u, h => by
    rw [preorder_eq] at h
    rcases h with _ | ⟨_, h⟩
    · exact ⟨_, .stop _, rfl⟩
    · obtain ⟨s, hs, p, hp, hlast⟩ := exists_wayList h
      refine ⟨_, .down hs hp, ?_⟩
      rw [List.getLast?_cons, hlast]
      rfl

private theorem exists_wayList : ∀ {ts : List (Tree α)} {u : Tree α}, u ∈ preorderList ts →
    ∃ s ∈ ts, ∃ p, Way s p ∧ p.getLast? = some u
  | [], _, h => by cases h
  | t :: ts, u, h => by
    rw [preorderList] at h
    rcases List.mem_append.1 h with h | h
    · exact ⟨t, .head _, exists_way h⟩
    · obtain ⟨s, hs, hp⟩ := exists_wayList h
      exact ⟨s, .tail _ hs, hp⟩

end

/-- The nodes of a tree are those to which a way leads. -/
private theorem mem_preorder_iff_way : u ∈ t.preorder ↔ ∃ p, Way t p ∧ p.getLast? = some u :=
  ⟨exists_way, fun ⟨_, hp, hlast⟩ => hp.subset u (List.mem_of_getLast? hlast)⟩

private theorem exists_way_of_map {f : α → β} {p : List (Tree β)} (h : Way (t.map f) p) :
    ∃ q, Way t q ∧ p = q.map (map f) := by
  generalize hu : t.map f = u at h
  induction h generalizing t with
  | stop =>
    subst hu
    exact ⟨[t], .stop t, rfl⟩
  | down hs _ ih =>
    subst hu
    rw [children_map] at hs
    obtain ⟨s, hmem, rfl⟩ := List.mem_map.1 hs
    obtain ⟨q, hq, rfl⟩ := ih rfl
    exact ⟨t :: q, .down hmem hq, rfl⟩

/-- How many nodes on the way are of a limited kind. -/
def limited (p : List (Tree α)) : Nat :=
  p.countP fun u => u.kind.isLimited

private theorem limited_map (f : α → β) (p : List (Tree α)) : limited (p.map (map f)) = limited p := by
  rw [limited, List.countP_map]
  exact List.countP_congr fun u _ => by rw [Function.comp_apply, kind_map]

private theorem limited_eq_zero (h : ∀ u ∈ p, u.kind.holdsBlocks = false) : limited p = 0 := by
  refine List.countP_eq_zero.2 fun u hu hlimited => ?_
  have hholds := h u hu
  rw [Kind.holdsBlocks_of_isLimited hlimited] at hholds
  cases hholds

private theorem nesting_of_holdsBlocks (h : t.kind.holdsBlocks = true) :
    t.nesting = nestingList t.children + limited [t] := by
  obtain ⟨note, content, children⟩ := t
  cases content with
  | root | blockQuote | list | listItem => rfl
  | _ => cases h

/-- A way down a tree with regular nodes has at most as many limited nodes as quotes and lists are nested in it. -/
private theorem Way.limited_le {source : List Char} {t : Tree Span} {p : List (Tree Span)} (h : Way t p)
    (hregular : ∀ u ∈ t.preorder, Regular source u) : limited p ≤ t.nesting := by
  induction h with
  | stop t =>
    cases hholds : t.kind.holdsBlocks with
    | true =>
      rw [nesting_of_holdsBlocks hholds]
      exact Nat.le_add_left _ _
    | false =>
      rw [limited_eq_zero (List.forall_mem_singleton.2 hholds)]
      exact Nat.zero_le _
  | @down t s p hs hp ih =>
    cases hholds : t.kind.holdsBlocks with
    | true =>
      have hle : limited p ≤ nestingList t.children :=
        (ih ((forall_mem_preorder.1 hregular).2 s hs)).trans (nesting_le_nestingList hs)
      have hcons : limited (t :: p) = limited p + limited [t] := by
        simp [limited, List.countP_cons]
      rw [nesting_of_holdsBlocks hholds, hcons]
      exact Nat.add_le_add_right hle _
    | false =>
      -- Nothing below is limited either.
      have hway : Way t (t :: p) := .down hs hp
      rw [limited_eq_zero fun u hu => Scan.holdsBlocks_preorder hregular hholds u (hway.subset u hu)]
      exact Nat.zero_le _

end Tree

namespace Scan

open Text

/-! ### What chunks take -/

/-- A chunk of a line and of so many of those that follow: there are as many, a quote takes the lines that it quotes, and
the rows inside a container are not empty and hold no more lines than it takes. -/
structure Chunk.Progress (c : Chunk) (taken : Nat) (ls : List Line) : Prop where
  taken_le : taken ≤ ls.length
  quoted : ∀ span lines, c = .quote span lines → lines.length = taken + 1
  rows_ne_nil : c.isContainer = true → c.rows ≠ []
  lines_ne_nil : ∀ r ∈ c.rows, r.2 ≠ []
  rows_le : (c.rows.map fun r => r.2.length).sum ≤ taken + 1

private theorem Chunk.Progress.of_leaf {c : Chunk} {taken : Nat} {ls : List Line} (htaken : taken ≤ ls.length)
    (hleaf : c.isContainer = false) : c.Progress taken ls where
  taken_le := htaken
  quoted _ _ h := by
    rw [h] at hleaf
    cases hleaf
  rows_ne_nil h := by
    rw [hleaf] at h
    cases h
  lines_ne_nil := by simp [Chunk.rows_eq_nil hleaf]
  rows_le := by simp [Chunk.rows_eq_nil hleaf]

namespace Setting

variable (s : Setting) {l : Line}

private theorem isSome_quoted? (hl : l.isBlank = false) (hindent : ¬4 ≤ l.indent s.tab)
    (hmark : l.trimStart.text.head? = some '>') : (s.quoted? l).isSome = true := by
  obtain ⟨rest, hrest⟩ := List.head?_eq_some_iff.1 hmark
  unfold quoted?
  rw [hl, if_neg (by simpa using hindent)]
  dsimp only
  rw [hrest]
  cases rest <;> rfl

private theorem length_item_lines_le (m : Marker) (ls : List Line) :
    0 < (s.item m ls).1.lines.length ∧ (s.item m ls).1.lines.length ≤ (s.item m ls).2 + 1 := by
  unfold item
  dsimp only
  rw [List.length_cons]
  exact ⟨Nat.succ_pos _, Nat.succ_le_succ (length_dropEndWhile_le _ _)⟩

/-- The items of a list hold lines, and no more than the list takes. -/
private theorem length_items_le (m : Marker) (ls : List Line) :
    (s.items m ls).1 ≠ [] ∧ (∀ item ∈ (s.items m ls).1, item.lines ≠ []) ∧
      ((s.items m ls).1.map fun item => item.lines.length).sum ≤ (s.items m ls).2 + 1 := by
  obtain ⟨hpos, hle⟩ := s.length_item_lines_le m ls
  have hne : (s.item m ls).1.lines ≠ [] := List.length_pos_iff.1 hpos
  rcases s.items_cases m ls with heq | ⟨x, rest, next, hdrop, -, -, heq⟩
  · rw [heq]
    exact ⟨by simp, List.forall_mem_singleton.2 hne, by simpa using hle⟩
  · obtain ⟨-, hlines, hsum⟩ := length_items_le next rest
    rw [heq]
    refine ⟨by simp, List.forall_mem_cons.2 ⟨hne, hlines⟩, ?_⟩
    rw [List.map_cons, List.sum_cons]
    dsimp only
    omega
termination_by ls.length
decreasing_by
  have hlen := congrArg List.length hdrop
  simp only [List.length_drop, List.length_cons] at hlen
  omega

theorem isContainer_fencedCode (fence : Fence) (l : Line) (ls : List Line) :
    (s.fencedCode fence l ls).1.isContainer = false := by
  unfold fencedCode
  dsimp only
  split <;> rfl

/-- A quote takes the lines that it quotes, of which the line that opens it is the first. -/
private theorem progress_quote (hquoted : (s.quoted? l).isSome = true) {ls : List Line}
    (htaken : (s.quote l ls).2 ≤ ls.length) :
    (s.quote l ls).1.Progress (s.quote l ls).2 ls := by
  obtain ⟨inner, hinner⟩ := Option.isSome_iff_exists.1 hquoted
  have hlines : s.quotedLines (l :: ls) = inner :: s.quotedLines ls := by rw [quotedLines, hinner]
  have hlength : (s.quotedLines (l :: ls)).length = (s.quote l ls).2 + 1 := by
    rw [quote, hlines]
    rfl
  refine ⟨htaken, fun span lines h => ?_, fun _ => by simp [quote, Chunk.rows], ?_, ?_⟩
  · cases h
    exact hlength
  · refine List.forall_mem_singleton.2 ?_
    rw [hlines]
    exact List.cons_ne_nil _ _
  · simpa [quote, Chunk.rows] using Nat.le_of_eq hlength

/-- A list takes the lines of its items. -/
private theorem progress_items (m : Marker) {ls : List Line} (htaken : (s.items m ls).2 ≤ ls.length) :
    (Chunk.list m (s.items m ls).1).Progress (s.items m ls).2 ls := by
  obtain ⟨hne, hlines, hsum⟩ := s.length_items_le m ls
  refine ⟨htaken, fun _ _ h => ?_, fun _ => by simpa [Chunk.rows] using hne, ?_, ?_⟩
  · cases h
  · exact List.forall_mem_map.2 hlines
  · simpa [Chunk.rows, Function.comp_def] using hsum

/-- The chunk that a line opens takes this line, and some of those that follow. -/
theorem progress_chunk (limit : Value) (hl : l.isBlank = false) (ls : List Line) :
    (s.chunk limit l ls).1.Progress (s.chunk limit l ls).2 ls := by
  have htaken := s.taken_le limit l ls
  revert htaken
  unfold chunk
  dsimp only
  split
  · exact fun htaken => .of_leaf htaken rfl
  rename_i hindent
  split
  · exact fun htaken => .of_leaf htaken (s.isContainer_fencedCode _ _ _)
  split
  · exact fun htaken => .of_leaf htaken rfl
  split
  · exact fun htaken => .of_leaf htaken rfl
  split
  · rename_i hquote
    refine s.progress_quote (s.isSome_quoted? hl hindent ?_)
    simpa using (Bool.and_eq_true_iff.1 hquote).2
  split
  · exact s.progress_items _
  · exact fun htaken => .of_leaf htaken (isContainer_paragraph _)

end Setting

/-! ### Rounds -/

/-- What a round gives: the node of a chunk with the notes on it, and whether a blank line stands before it. -/
structure Found where
  gap : Bool
  tree : Tree Span
  notes : List Note
deriving DecidableEq, Repr

/-- The blocks that are found in a row of lines. -/
def Blocks.ofFound (found : List Found) : Blocks :=
  ⟨found.map Found.tree, found.flatMap Found.notes, (found.drop 1).any Found.gap⟩

/-- How lines inside so many containers are cut: one more may be opened where there are fewer than the limit. -/
def settingAt (o : ScanOptions) (depth : Nat) (inItem : Bool) : Setting :=
  ⟨o.tabSize, depth < o.maxNesting, inItem⟩

/-- A row of lines inside so many containers is read in rounds, which are counted with those of the rows inside its
chunks. -/
inductive Rounds (o : ScanOptions) : Nat → Bool → Bool → List Line → List Found → Nat → Prop
  | done {depth : Nat} {inItem gap : Bool} : Rounds o depth inItem gap [] [] 0
  | blank {depth : Nat} {inItem gap : Bool} {l : Line} {ls : List Line} {found : List Found} {count : Nat}
    (hl : l.isBlank = true) (hrest : Rounds o depth inItem true ls found count) :
    Rounds o depth inItem gap (l :: ls) found (count + 1)
  | block {depth : Nat} {inItem gap : Bool} {l : Line} {ls : List Line} {c : Chunk} {taken : Nat} {found : List Found}
    {count : Nat} {inner : Bool × List Line → List Found} {counts : Bool × List Line → Nat}
    (hl : l.isBlank = false) (hc : (settingAt o depth inItem).chunk o.nestingLimit l ls = (c, taken))
    (hrows : ∀ r ∈ c.rows, Rounds o (depth + 1) r.1 false r.2 (inner r) (counts r))
    (hrest : Rounds o depth inItem false (ls.drop taken) found count) :
    Rounds o depth inItem gap (l :: ls)
      (⟨gap, (chunkTree (fun inItem lines => .ofFound (inner (inItem, lines))) c).1,
        (chunkTree (fun inItem lines => .ofFound (inner (inItem, lines))) c).2⟩ :: found)
      (count + 1 + (c.rows.map counts).sum)

variable {o : ScanOptions} {depth count : Nat} {inItem gap : Bool} {ls : List Line} {found : List Found}

/-- How the rows inside the chunks of a row are read. -/
def innerAt (o : ScanOptions) (depth : Nat) : Inner :=
  match o.maxNesting - depth with
  | 0 => fun _ _ => ⟨[], [], false⟩
  | room + 1 => readBlocks o room

theorem readBlocks_at (o : ScanOptions) (depth : Nat) (inItem : Bool) (ls : List Line) :
    readBlocks o (o.maxNesting - depth) inItem ls =
      assemble (innerAt o depth) ((settingAt o depth inItem).segments o.nestingLimit false ls) := by
  unfold settingAt innerAt
  cases hroom : o.maxNesting - depth with
  | zero =>
    rw [show decide (depth < o.maxNesting) = false from decide_eq_false (by omega)]
    rfl
  | succ room =>
    rw [show decide (depth < o.maxNesting) = true from decide_eq_true (by omega)]
    rfl

/-- Containers stand only inside fewer than the limit, and there is room for one level less in them. -/
theorem lt_of_mem_rows {l : Line} {c : Chunk} {taken : Nat}
    (hc : (settingAt o depth inItem).chunk o.nestingLimit l ls = (c, taken)) {r : Bool × List Line} (hr : r ∈ c.rows) :
    depth < o.maxNesting := by
  refine Decidable.by_contra fun hlt => ?_
  have hnone := Setting.isContainer_chunk (s := settingAt o depth inItem) (decide_eq_false hlt) o.nestingLimit l ls
  rw [hc, Chunk.isContainer_of_mem_rows hr] at hnone
  cases hnone

theorem innerAt_of_lt (h : depth < o.maxNesting) : innerAt o depth = readBlocks o (o.maxNesting - (depth + 1)) := by
  obtain ⟨room, hroom⟩ := Nat.exists_eq_add_of_lt h
  rw [innerAt, show o.maxNesting - depth = room + 1 by omega, show o.maxNesting - (depth + 1) = room by omega]

private theorem ofFound_segments (inner : Inner) (segments : List Segment) :
    Blocks.ofFound (segments.map fun seg => ⟨seg.gap, (chunkTree inner seg.chunk).1, (chunkTree inner seg.chunk).2⟩) =
      assemble inner segments := by
  simp only [Blocks.ofFound, assemble, List.map_map, List.flatMap_map, ← List.map_drop, List.any_map, Function.comp_def]

namespace Rounds

/-- Rounds find the nodes of the segments into which the lines are cut. -/
private theorem found_eq (h : Rounds o depth inItem gap ls found count) :
    found = ((settingAt o depth inItem).segments o.nestingLimit gap ls).map fun seg =>
      ⟨seg.gap, (chunkTree (innerAt o depth) seg.chunk).1, (chunkTree (innerAt o depth) seg.chunk).2⟩ := by
  induction h with
  | done => rw [Setting.segments, List.map_nil]
  | blank hl _ ih => rw [ih, Setting.segments, if_pos hl]
  | @block depth inItem gap l ls c taken found count inner counts hl hc hrows hrest ihrows ih =>
    have hinner : ∀ r ∈ c.rows, Blocks.ofFound (inner (r.1, r.2)) = innerAt o depth r.1 r.2 := by
      intro r hr
      rw [innerAt_of_lt (lt_of_mem_rows hc hr), readBlocks_at, ← ofFound_segments, ← ihrows r hr]
    have htree : chunkTree (fun inItem lines => .ofFound (inner (inItem, lines))) c = chunkTree (innerAt o depth) c :=
      Chunk.chunkTree_congr hinner
    rw [Setting.segments, if_neg (Bool.eq_false_iff.1 hl), hc, List.map_cons, ← ih, htree]

/-- Rounds find the blocks that the row reads as. -/
theorem blocks_eq (h : Rounds o depth inItem false ls found count) :
    Blocks.ofFound found = readBlocks o (o.maxNesting - depth) inItem ls := by
  rw [h.found_eq, ofFound_segments, readBlocks_at]

/-- There are at most as many rounds as lines, on every level. -/
theorem count_le (h : Rounds o depth inItem gap ls found count) :
    count ≤ (o.maxNesting - depth + 1) * ls.length := by
  induction h with
  | done => exact Nat.zero_le _
  | @blank depth inItem gap l ls found count hl hrest ih =>
    rw [List.length_cons, Nat.mul_add_one]
    omega
  | @block depth inItem gap l ls c taken found count inner counts hl hc hrows hrest ihrows ih =>
    have hprogress := (settingAt o depth inItem).progress_chunk o.nestingLimit hl ls
    rw [hc] at hprogress
    have htaken : taken ≤ ls.length := hprogress.taken_le
    have hsum : (c.rows.map fun r => r.2.length).sum ≤ taken + 1 := hprogress.rows_le
    -- The rows inside have one level less to go, and no more lines than the chunk takes.
    have hinner : (c.rows.map counts).sum ≤ (o.maxNesting - depth) * (taken + 1) := by
      have hle : (c.rows.map counts).sum ≤ (c.rows.map fun r => (o.maxNesting - depth) * r.2.length).sum := by
        refine List.sum_le_sum fun r hr => ?_
        have hlt := lt_of_mem_rows hc hr
        have hr := ihrows r hr
        rwa [show o.maxNesting - (depth + 1) + 1 = o.maxNesting - depth by omega] at hr
      rw [List.sum_map_mul_left] at hle
      exact hle.trans (Nat.mul_le_mul_left _ hsum)
    rw [List.length_drop] at ih
    calc count + 1 + (c.rows.map counts).sum
        ≤ (o.maxNesting - depth + 1) * (ls.length - taken) + 1 + (o.maxNesting - depth) * (taken + 1) := by omega
      _ ≤ (o.maxNesting - depth + 1) * (ls.length - taken) + (o.maxNesting - depth + 1) * (taken + 1) := by
        rw [Nat.add_assoc, Nat.add_mul _ 1 (taken + 1)]
        omega
      _ = (o.maxNesting - depth + 1) * (ls.length + 1) := by
        rw [← Nat.mul_add]
        congr 1
        omega

end Rounds

/-- A row of lines is read in finitely many rounds. -/
theorem exists_rounds (o : ScanOptions) (depth : Nat) (inItem gap : Bool) (ls : List Line) :
    ∃ found count, Rounds o depth inItem gap ls found count := by
  match ls with
  | [] => exact ⟨[], 0, .done⟩
  | l :: ls =>
    cases hl : l.isBlank with
    | true =>
      obtain ⟨found, count, hrest⟩ := exists_rounds o depth inItem true ls
      exact ⟨found, count + 1, .blank hl hrest⟩
    | false =>
      obtain ⟨⟨c, taken⟩, hc⟩ : ∃ x, (settingAt o depth inItem).chunk o.nestingLimit l ls = x := ⟨_, rfl⟩
      have hrows : ∀ r ∈ c.rows, ∃ found count, Rounds o (depth + 1) r.1 false r.2 found count := fun r hr =>
        have := lt_of_mem_rows hc hr
        exists_rounds o (depth + 1) r.1 false r.2
      choose! inner counts hrows using hrows
      obtain ⟨found, count, hrest⟩ := exists_rounds o depth inItem false (ls.drop taken)
      exact ⟨_, _, .block hl hc hrows hrest⟩
termination_by (o.maxNesting - depth, ls.length)
decreasing_by
  · exact .left _ _ (by omega)
  · exact .right _ (Nat.lt_succ_of_le (by rw [List.length_drop]; exact Nat.sub_le _ _))
  · exact .right _ (Nat.lt_succ_self _)

/-! ### Documents -/

/-- Quotes and lists are nested in a document no deeper than the limit. -/
private theorem nesting_readDocument_le (o : ScanOptions) (text : List Char) :
    (readDocument o text).tree.nesting ≤ o.maxNesting := by
  obtain ⟨-, -, hfront⟩ := splitDocument_fit o.frontMatter text
  have hblocks := Tree.nestingList_le.1
    (nesting_readBlocks_le o o.maxNesting false (splitDocument o.frontMatter text).2)
  rw [readDocument_eq]
  refine Tree.nestingList_le.2 (List.forall_mem_append.2 ⟨fun t ht => ?_, hblocks⟩)
  obtain ⟨note, content, children⟩ := t
  have hkind : content.kind = .frontMatter := (hfront _ ht).1
  rw [Tree.nesting, hkind]
  exact Nat.zero_le _

/-- On the way to a node of a scanned tree there are at most as many quotes and lists as the limit says.  The lines behind
the front matter are read in rounds, which come to an end with the blocks of the tree, at most as many as there are lines
on each of the levels; and every chunk takes at least the line that opens it. -/
theorem scan_rounds (o : ScanOptions) (path : Option String) (text : String) :
    (∃ t, (scan o path text).tree = some t ∧ ∀ u ∈ t.preorder, (∃ p, t.Way p ∧ p.getLast? = some u) ∧
        ∀ p, t.Way p → p.getLast? = some u → Tree.limited p ≤ o.maxNesting) ∧
      (∃ found count, Rounds o 0 false false (splitDocument o.frontMatter text.toList).2 found count) ∧
      (∀ found count, Rounds o 0 false false (splitDocument o.frontMatter text.toList).2 found count →
        (readDocument o text.toList).tree.children =
            (splitDocument o.frontMatter text.toList).1 ++ found.map Found.tree ∧
          count ≤ (o.maxNesting + 1) * (splitDocument o.frontMatter text.toList).2.length) ∧
      ∀ (s : Setting) (l : Line) (ls : List Line), l.isBlank = false →
        (s.chunk o.nestingLimit l ls).1.Progress (s.chunk o.nestingLimit l ls).2 ls := by
  refine ⟨⟨_, tree_scan o path text, fun u hu => ⟨Tree.mem_preorder_iff_way.1 hu, fun p hp _ => ?_⟩⟩,
    exists_rounds _ _ _ _ _, fun found count h => ⟨?_, h.count_le⟩, fun s l ls hl => s.progress_chunk _ hl ls⟩
  · obtain ⟨q, hq, rfl⟩ := Tree.exists_way_of_map hp
    rw [Tree.limited_map]
    exact (hq.limited_le (regular_readDocument o text.toList)).trans (nesting_readDocument_le o text.toList)
  · have hblocks : found.map Found.tree = (readBlocks o o.maxNesting false _).trees := congrArg Blocks.trees h.blocks_eq
    rw [readDocument_eq, hblocks]
    rfl

end Scan

end MarkdownTree
