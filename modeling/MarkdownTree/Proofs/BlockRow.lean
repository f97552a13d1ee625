import MarkdownTree.Proofs.ItemRow
import MarkdownTree.Proofs.Nesting

/-!
# Rows of blocks

Lines that read as a block on their own do so in a row of blocks as well, if the block after each of them ends it
(`Block.Meets`).  A row of such blocks is read as these blocks, and it is loose if blank lines stand between them and
one of them stands behind something other than a list (`readBlocks_row`), because a list takes the blank lines after it.
Quotes and lists of such rows are again blocks that stand in rows (`stands_quote`, `stands_list`).
-/

namespace MarkdownTree.Scan

open Text Print

variable (o : ScanOptions)

/-- How lines are cut where so many containers may still be opened, one in the other. -/
def settingOf (room : Nat) (inItem : Bool) : Setting :=
  ⟨o.tabSize, room != 0, inItem⟩

/-- How the inner lines of a container are read where so many may still be opened, with this one. -/
def innerOf : Nat → Inner
  | 0 => fun _ _ => ⟨[], [], false⟩
  | room + 1 => readBlocks o room

theorem readBlocks_eq (room : Nat) (inItem : Bool) (ls : List Line) :
    readBlocks o room inItem ls =
      assemble (innerOf o room) ((settingOf o room inItem).segments o.nestingLimit false ls) := by
  cases room <;> rfl

/-- A block, the mark of its items if it is a list, and its lines. -/
structure Block where
  tree : Tree Unit
  mark : Char
  lines : List (List Char)

namespace Block

/-- The lines do not go on with the block before them, but for blank ones after a list. -/
def Ends (b : Block) (s : Setting) (rest : List Line) : Prop :=
  match b.tree.content with
  | .paragraph => s.EndsParagraph rest
  | .blockQuote => s.EndsQuote rest
  | .list ordered _ _ => s.EndsList ordered b.mark rest
  | _ => True

/-- The lines that a block leaves of those after it. -/
def left (b : Block) (rest : List Line) : List Line :=
  if b.tree.kind = .list then rest.dropWhile Line.isBlank else rest

/-- The lines of the block are read as its tree, whatever comes after them that does not go on with it. -/
structure Stands (b : Block) : Prop where
  /-- The first line starts with something visible, and with a quote mark or a list marker only if it has to. -/
  head : ∃ line rest, b.lines = line :: rest ∧ ∃ c ∈ line.head?, isBlank c = false ∧
    (c = '>' → b.tree.kind = .blockQuote)
  marker : ∀ line ∈ b.lines.head?, ∀ (tab : Rat) (l : Line) (m : Marker), l.text = line → Marker.read? tab l = some m →
    ∃ start spread, b.tree.content = .list m.ordered start spread ∧ m.symbol = b.mark
  box : ∀ line ∈ b.lines.head?, taskBox? line = none
  last : ∀ line ∈ b.lines.getLast?, line.all isBlank = false
  reads : ∀ room, b.tree.nesting ≤ room → ∀ inItem (ls rest : List Line), ls.map Line.text = b.lines →
    b.Ends (settingOf o room inItem) rest → (settingOf o room inItem).Cuts o.nestingLimit ls rest (b.left rest) fun c =>
      (chunkTree (innerOf o room) c).1.erase = b.tree

/-- The first line of a block interrupts a paragraph wherever the block may stand in an item. -/
def Interrupts (b : Block) : Prop :=
  ∀ line ∈ b.lines.head?, ∀ s : Setting, (b.tree.nesting ≠ 0 → s.containers = true) → s.inItem = true → ∀ l : Line,
    l.text = line → s.interrupts l = true

/-- A block ends the block before it, with a blank line between them unless the row is tight. -/
structure Meets (tight : Bool) (b d : Block) : Prop where
  paragraph : tight = true → b.tree.kind = .paragraph →
    d.Interrupts ∧ ∀ line ∈ d.lines.head?, underlineDepth? line = none
  quote : tight = true → b.tree.kind = .blockQuote → d.tree.kind ≠ .blockQuote
  list : tight = true → b.tree.kind = .list → d.Interrupts
  marks : ∀ ordered start spread start' spread', b.tree.content = .list ordered start spread →
    d.tree.content = .list ordered start' spread' → b.mark ≠ d.mark

end Block

variable {o}

section

variable {b d : Block}

private theorem ends_nil (s : Setting) : b.Ends s [] := by
  unfold Block.Ends
  split
  · exact fun _ h => by cases h
  · exact fun _ h => by cases h
  · exact ⟨⟨fun _ h => (by cases h), fun _ h => (by cases h)⟩, fun _ h => (by cases h)⟩
  · trivial

private theorem Setting.quoted?_of_head (s : Setting) {l : Line} {c : Char} {cs : List Char} (hl : l.text = c :: cs)
    (hblank : isBlank c = false) (hc : c ≠ '>') : s.quoted? l = none := by
  unfold Setting.quoted?
  rw [Line.isBlank_of_head hl hblank, Line.indent_of_head hl hblank, Line.trimStart_of_head hl hblank,
    if_neg (by decide)]
  dsimp only
  rw [hl]
  split
  · rename_i heq
    exact absurd (List.cons.inj heq).1 hc
  · rename_i heq
    exact absurd (List.cons.inj heq).1 hc
  · rfl

variable {tight : Bool} {room : Nat} {inItem : Bool} {blanks : List Line}
  (hblanks : blanks.map Line.text = if !tight then [[]] else []) {l : Line} {ls rest : List Line}

include hblanks in
/-- A list takes the blank lines behind it, so what comes after them stands directly behind it. -/
private theorem segments_left (hvisible : l.isBlank = false) :
    (settingOf o room inItem).segments o.nestingLimit false (b.left (blanks ++ l :: rest)) =
      (settingOf o room inItem).segments o.nestingLimit (!tight && b.tree.kind != .list) (l :: rest) := by
  unfold Block.left
  split
  · rename_i hkind
    rw [Setting.dropWhile_gap hblanks rest hvisible, hkind, show (Kind.list != .list) = false from rfl, Bool.and_false]
  · rename_i hkind
    rw [bne_iff_ne.2 hkind, Bool.and_true]
    rcases Setting.gap_cases hblanks with ⟨htight, rfl⟩ | ⟨hloose, x, hx, rfl⟩
    · rw [htight, List.nil_append]
    · rw [hloose, List.singleton_append, Setting.segments, if_pos hx]

variable (hd : d.Stands o) (h : b.Meets tight d) (hls : (l :: ls).map Line.text = d.lines)
include hblanks hd h hls

private theorem endsList_of_meets {ordered : Bool} {start : Option Int} {spread : Bool}
    (hb : b.tree.content = .list ordered start spread) (hvisible : l.isBlank = false)
    (hindent : l.indent o.tabSize = 0) :
    (settingOf o room inItem).EndsList ordered b.mark (blanks ++ l :: rest) := by
  have hfirst : l.text ∈ d.lines.head? := by rw [← hls]; rfl
  refine ⟨Setting.endsItem_gap hblanks rest hvisible (fun htight previous fence => ?_) hindent, ?_⟩
  · have hinterrupts := h.list (by simpa using htight) (congrArg Content.kind hb) l.text hfirst
    exact Setting.isLazy_of_interrupts (hinterrupts _ (fun _ => rfl) rfl l rfl) previous fence
  · rw [Setting.dropWhile_gap hblanks rest hvisible]
    rintro _ ⟨⟩ m hread ⟨rfl, hsymbol⟩
    obtain ⟨start', spread', hcontent, hmark⟩ := hd.marker l.text hfirst o.tabSize l m rfl hread
    exact h.marks _ _ _ _ _ hb hcontent (hsymbol.symm.trans hmark)

/-- The first line of a block ends the block before it, where they meet. -/
private theorem ends_of_meets (hroom : d.tree.nesting ≤ room) (hitem : tight = true → inItem = true) :
    b.Ends (settingOf o room inItem) (blanks ++ l :: rest) ∧ l.isBlank = false := by
  obtain ⟨line, more, hlines, c, hc, hblank, hquote⟩ := hd.head
  have hl : l.text = line := by
    rw [hlines] at hls
    exact (List.cons.inj hls).1
  obtain ⟨cs, hcs⟩ := List.head?_eq_some_iff.1 hc
  have hhead : l.text = c :: cs := hl.trans hcs
  have hfirst : line ∈ d.lines.head? := by rw [hlines]; rfl
  have hvisible := Line.isBlank_of_head hhead hblank
  refine ⟨?_, hvisible⟩
  unfold Block.Ends
  split
  · rename_i hb
    refine Setting.head?_gap hblanks rest (fun x hx => ⟨Setting.goesOn_of_blank _ hx, Setting.underline?_of_blank _ hx⟩)
      fun htight => ?_
    have htight : tight = true := by simpa using htight
    obtain ⟨hinterrupts, hunder⟩ := h.paragraph htight (congrArg Content.kind hb)
    have hcontainers : d.tree.nesting ≠ 0 → (settingOf o room inItem).containers = true := by
      intro hne
      simp only [settingOf, bne_iff_ne]
      omega
    constructor
    · rw [Setting.goesOn, hinterrupts line hfirst (settingOf o room inItem) hcontainers (hitem htight) l hl]
      simp
    · rw [Setting.underline?, Line.trimStart_of_head hhead hblank, hl, hunder line hfirst, ite_self]
  · rename_i hb
    refine Setting.head?_gap hblanks rest (fun x hx => Setting.quoted?_of_blank _ hx) fun htight => ?_
    refine Setting.quoted?_of_head _ hhead hblank fun hc => ?_
    exact h.quote (by simpa using htight) (congrArg Content.kind hb) (hquote hc)
  · rename_i hb
    exact endsList_of_meets hblanks hd h hls hb hvisible (Line.indent_of_head hhead hblank o.tabSize)
  · trivial

end

/-! ### Rows -/

/-- The lines of a row of blocks inside its container; without blocks, one without text. -/
def rowLines (tight : Bool) (row : List Block) : List (List Char) :=
  if row.isEmpty then [[]] else spacedLines (!tight) (row.map Block.lines)

/-- Some block of a row, the last one apart, is no list. -/
def hasLeader (ts : List (Tree Unit)) : Bool :=
  ts.dropLast.any fun t => t.kind != .list

section

variable {tight : Bool} {room : Nat} {inItem : Bool} (hitem : tight = true → inItem = true)
include hitem

/-- A row of blocks that stand where they meet is cut into these blocks. -/
private theorem segments_row {b : Block} {row : List Block} (hstands : ∀ x ∈ b :: row, x.Stands o)
    (hmeets : (b :: row).IsChain (Block.Meets tight)) (hroom : ∀ x ∈ b :: row, x.tree.nesting ≤ room) {ls : List Line}
    (hls : ls.map Line.text = rowLines tight (b :: row)) (gap : Bool) : ∃ chunk segments,
      (settingOf o room inItem).segments o.nestingLimit gap ls = ⟨gap, chunk⟩ :: segments ∧
      (chunkTree (innerOf o room) chunk).1.erase = b.tree ∧
      segments.map (fun seg => (chunkTree (innerOf o room) seg.chunk).1.erase) = row.map Block.tree ∧
      segments.any Segment.gap = (!tight && hasLeader ((b :: row).map Block.tree)) := by
  induction row generalizing b ls gap with
  | nil =>
    obtain ⟨chunk, htree, hsegments⟩ := (hstands b (.head _)).reads room (hroom b (.head _)) inItem ls [] hls
      (ends_nil _) gap
    refine ⟨chunk, [], ?_, htree, rfl, by simp [hasLeader]⟩
    rw [List.append_nil] at hsegments
    have hleft : b.left [] = [] := by
      unfold Block.left
      split <;> rfl
    rw [hsegments, hleft, Setting.segments]
  | cons d row ih =>
    obtain ⟨hb, hrest⟩ := List.forall_mem_cons.1 hstands
    have hd := hrest d (.head _)
    obtain ⟨hmeet, hmeets⟩ := List.isChain_cons_cons.1 hmeets
    obtain ⟨hroomb, hroomrest⟩ := List.forall_mem_cons.1 hroom
    have hsplit : ls.map Line.text =
        b.lines ++ ((if !tight then [[]] else []) ++ rowLines tight (d :: row)) := by
      rw [hls, ← List.append_assoc]
      cases tight <;> rfl
    obtain ⟨own, others, rfl, hown, hothers⟩ := List.map_eq_append_iff.1 hsplit
    obtain ⟨blanks, others, rfl, hblanks, hnext⟩ := List.map_eq_append_iff.1 hothers
    obtain ⟨lines, hlines⟩ : ∃ lines, rowLines tight (d :: row) = d.lines ++ lines := by
      cases row with
      | nil => exact ⟨[], (List.append_nil _).symm⟩
      | cons e row => exact ⟨_, List.append_assoc _ _ _⟩
    obtain ⟨first, rest, rfl, hfirst, -⟩ := List.map_eq_append_iff.1 (hnext.trans hlines)
    obtain ⟨line, more, hdlines, -⟩ := hd.head
    obtain ⟨l, first, rfl, -⟩ := List.map_eq_cons_iff.1 (hfirst.trans hdlines)
    obtain ⟨hends, hvisible⟩ :
        b.Ends (settingOf o room inItem) (blanks ++ l :: (first ++ rest)) ∧ l.isBlank = false :=
      ends_of_meets hblanks hd hmeet hfirst (hroomrest d (.head _)) hitem
    obtain ⟨chunk, htree, hsegments⟩ := hb.reads room hroomb inItem own _ hown hends gap
    obtain ⟨chunk', segments, hsegments', htree', htrees, hgaps⟩ :=
      ih hrest hmeets hroomrest hnext (!tight && b.tree.kind != .list)
    refine ⟨chunk, ⟨!tight && b.tree.kind != .list, chunk'⟩ :: segments, ?_, htree, ?_, ?_⟩
    · exact hsegments.trans (congrArg _ ((segments_left hblanks hvisible).trans hsegments'))
    · rw [List.map_cons, htree', htrees]
      rfl
    · rw [List.any_cons, hgaps]
      cases tight <;> rfl

/-- A row of blocks that stand where they meet is read as these blocks.  It is loose if it is not tight and one of them,
the last one apart, is no list. -/
theorem readBlocks_row {row : List Block} (hstands : ∀ x ∈ row, x.Stands o) (hmeets : row.IsChain (Block.Meets tight))
    (hroom : ∀ x ∈ row, x.tree.nesting ≤ room) {ls : List Line} (hls : ls.map Line.text = rowLines tight row) :
    (readBlocks o room inItem ls).trees.map Tree.erase = row.map Block.tree ∧
      (readBlocks o room inItem ls).loose = (!tight && hasLeader (row.map Block.tree)) := by
  rw [readBlocks_eq]
  cases row with
  | nil =>
    obtain ⟨l, rfl, hl⟩ := List.map_eq_singleton_iff.1 hls
    have hempty : l.isBlank = true := by
      rw [Line.isBlank, hl]
      rfl
    rw [Setting.segments, if_pos hempty, Setting.segments]
    exact ⟨rfl, by simp [hasLeader, assemble]⟩
  | cons b row =>
    obtain ⟨chunk, segments, hsegments, htree, htrees, hgaps⟩ := segments_row hitem hstands hmeets hroom hls false
    have htrees' : (assemble (innerOf o room) (⟨false, chunk⟩ :: segments)).trees.map Tree.erase =
        (chunkTree (innerOf o room) chunk).1.erase ::
          segments.map fun seg => (chunkTree (innerOf o room) seg.chunk).1.erase := by
      simp [assemble]
    rw [hsegments, ← hgaps, htrees', htree, htrees]
    exact ⟨rfl, rfl⟩

end

end MarkdownTree.Scan
