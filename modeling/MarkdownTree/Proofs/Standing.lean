import MarkdownTree.Proofs.BlockRow
import MarkdownTree.Proofs.HeadingForm

/-!
# Blocks that stand in rows

The lines of a block of each kind, as they are written, stand in rows (`Block.Stands`): paragraphs and underlined
headings of quiet lines, marked headings, rules, fenced code whose fence is not taken for a longer one, quotes of rows
of such blocks, and lists of items that hold such rows.  Headings with marks, rules, code, quotes and lists interrupt
paragraphs (`Block.Interrupts`).
-/

namespace MarkdownTree.Scan

open Text Print

variable (o : ScanOptions)

/-! ### Signs of blocks -/

private theorem marker?_eq_none_of_head {c : Char} {cs : List Char} (hmark : c ≠ '-' ∧ c ≠ '+' ∧ c ≠ '*')
    (hdigit : isDigit c = false) : marker? (c :: cs) = none := by
  have hno : ¬(c = '-' ∨ c = '+' ∨ c = '*') := by
    rintro (h | h | h)
    · exact hmark.1 h
    · exact hmark.2.1 h
    · exact hmark.2.2 h
  unfold marker?
  dsimp only
  rw [if_neg fun h => hno h.1, List.takeWhile_cons_of_neg (by simp [hdigit])]
  simp

private theorem Marker.read?_eq_none {l : Line} {c : Char} {cs : List Char} (hl : l.text = c :: cs)
    (hblank : isBlank c = false)
    (hmarker : isRule (c :: cs) = true ∨ marker? (c :: cs) = none) (tab : Rat) : Marker.read? tab l = none := by
  have hread := read?_of_head hl hblank tab
  rw [hl] at hread
  rcases hmarker with h | h
  · rw [h, if_pos rfl] at hread
    exact Option.map_eq_none_iff.1 hread
  · rw [h, Option.map_none, ite_self] at hread
    exact Option.map_eq_none_iff.1 hread

/-! ### Leaves -/

section

variable (mark : Char) {content : Content} {children : List (Tree Unit)} {lines : List (List Char)}

/-- A block whose first line starts with a character that opens neither a quote nor an item. -/
private theorem stands_of_head {t : Tree Unit} {c : Char} {cs : List Char} {more : List (List Char)}
    (hblank : isBlank c = false) (hquote : c ≠ '>') (hmarker : isRule (c :: cs) = true ∨ marker? (c :: cs) = none)
    (hbox : taskBox? (c :: cs) = none)
    (hlast : ∀ line ∈ ((c :: cs) :: more).getLast?, line.all isBlank = false)
    (hreads : ∀ room, t.nesting ≤ room → ∀ inItem (ls rest : List Line), ls.map Line.text = (c :: cs) :: more →
      Block.Ends ⟨t, mark, (c :: cs) :: more⟩ (settingOf o room inItem) rest →
      (settingOf o room inItem).Cuts o.nestingLimit ls rest (Block.left ⟨t, mark, (c :: cs) :: more⟩ rest) fun c =>
        (chunkTree (innerOf o room) c).1.erase = t) :
    Block.Stands o ⟨t, mark, (c :: cs) :: more⟩ where
  head := ⟨c :: cs, more, rfl, c, rfl, hblank, fun h => absurd h hquote⟩
  marker := by
    rintro _ ⟨⟩ tab l m hl hread
    rw [Marker.read?_eq_none hl hblank hmarker] at hread
    cases hread
  box := by
    rintro _ ⟨⟩
    exact hbox
  last := hlast
  reads := hreads

/-- Quiet lines stand as the block that they are read as on their own, with or without an underline. -/
private theorem stands_of_quiet {t : Tree Unit} {first : List Char} {more under : List (List Char)}
    (hquiet : ∀ line ∈ first :: more, IsQuiet line) (hbox : taskBox? first = none)
    (hunder : ∀ line ∈ under, line.all isBlank = false)
    (hreads : ∀ room, t.nesting ≤ room → ∀ inItem (ls rest : List Line), ls.map Line.text = first :: (more ++ under) →
      Block.Ends ⟨t, mark, first :: (more ++ under)⟩ (settingOf o room inItem) rest →
      (settingOf o room inItem).Cuts o.nestingLimit ls rest (Block.left ⟨t, mark, first :: (more ++ under)⟩ rest)
        fun c =>
        (chunkTree (innerOf o room) c).1.erase = t) :
    Block.Stands o ⟨t, mark, first :: (more ++ under)⟩ := by
  have hfirst := hquiet first (.head _)
  obtain ⟨c, hc, hblank⟩ := hfirst.head
  obtain ⟨cs, rfl⟩ := List.head?_eq_some_iff.1 hc
  refine stands_of_head o mark hblank (fun h => hfirst.quote (congrArg some h)) (.inr hfirst.marker) hbox ?_ hreads
  intro line hline
  have hmem := List.mem_of_getLast? hline
  rw [← List.cons_append, List.mem_append] at hmem
  rcases hmem with hmem | hmem
  · obtain ⟨d, hd, hdblank⟩ := (hquiet line hmem).head
    obtain ⟨ds, rfl⟩ := List.head?_eq_some_iff.1 hd
    rw [List.all_cons, hdblank, Bool.false_and]
  · exact hunder line hmem

theorem stands_paragraph {first : List Char} {more : List (List Char)} (hquiet : ∀ line ∈ first :: more, IsQuiet line)
    (hbox : taskBox? first = none) (hread : ∀ ls : List Line, ls.map Line.text = first :: more →
      (readInline (contentOf (Setting.paragraphLines ls))).trees.map Tree.erase = children) :
    Block.Stands o ⟨.node () .paragraph children, mark, first :: more⟩ := by
  rw [← List.append_nil more]
  refine stands_of_quiet o mark hquiet hbox (by simp) fun room _ inItem ls rest hls hends => ?_
  rw [List.append_nil] at hls
  have hne : ls ≠ [] := by
    rintro rfl
    cases hls
  have hlines : ∀ x ∈ ls, IsQuiet x.text := fun x hx => hquiet x.text (by rw [← hls]; exact List.mem_map_of_mem hx)
  refine (Setting.cuts_paragraph hne hlines hends).mono ?_
  rintro _ ⟨span, notes, rfl⟩
  rw [← hread ls hls, ← erase_trees_readLines]
  exact Tree.erase_node ..

theorem stands_underlined {depth : Nat} (hdepth : depth = 1 ∨ depth = 2) {first : List Char} {more : List (List Char)}
    (hquiet : ∀ line ∈ first :: more, IsQuiet line) (hbox : taskBox? first = none)
    (hread : ∀ ls : List Line, ls.map Line.text = first :: more →
      (readInline (contentOf (Setting.paragraphLines ls))).trees.map Tree.erase = children) :
    Block.Stands o ⟨.node () (.heading depth) children, mark,
      first :: (more ++ [List.replicate 3 (if depth = 1 then '=' else '-')])⟩ := by
  refine stands_of_quiet o mark hquiet hbox ?_ fun room _ inItem ls rest hls _ => ?_
  · rw [List.forall_mem_singleton]
    rcases hdepth with rfl | rfl <;> decide
  · rw [← List.cons_append] at hls
    obtain ⟨own, last, rfl, hown, hlast⟩ := List.map_eq_append_iff.1 hls
    obtain ⟨under, rfl, hunder⟩ := List.map_eq_singleton_iff.1 hlast
    have hne : own ≠ [] := by
      rintro rfl
      cases hown
    have hlines : ∀ x ∈ own, IsQuiet x.text := fun x hx => hquiet x.text (by rw [← hown]; exact List.mem_map_of_mem hx)
    have hreads : (settingOf o room inItem).underline? under = some depth := by
      rcases hdepth with rfl | rfl
      · exact Setting.underline?_marks _ (.inl rfl) hunder
      · exact Setting.underline?_marks _ (.inr rfl) hunder
    refine (Setting.cuts_underlined hne hlines hreads).mono ?_
    rintro _ ⟨span, notes, rfl⟩
    rw [← hread own hown, ← erase_trees_readLines]
    exact Tree.erase_node ..

section

variable {depth : Nat} (hone : 1 ≤ depth) (hsix : depth ≤ 6) {more : List Char} (hmore : endsOrGap more = true)
include hone hsix hmore

theorem stands_marked (hread : (readInline (headingText (trimStart more))).trees.map Tree.erase = children) :
    Block.Stands o ⟨.node () (.heading depth) children, mark, [List.replicate depth '#' ++ more]⟩ := by
  obtain ⟨n, hn⟩ := Nat.exists_eq_add_of_le' hone
  have hhead : List.replicate depth '#' ++ more = '#' :: (List.replicate n '#' ++ more) := by rw [hn]; rfl
  rw [hhead]
  refine stands_of_head o mark (by decide) (by decide) (.inr (marker?_eq_none_of_head (by decide) (by decide +kernel)))
    (taskBox?_eq_none (by decide)) ?_ fun room _ inItem ls rest hls _ => ?_
  · rintro _ ⟨⟩
    rfl
  · rw [← hhead] at hls
    obtain ⟨l, rfl, hl⟩ := List.map_eq_singleton_iff.1 hls
    refine (Setting.cuts_marked hone hsix hl hmore).mono ?_
    rintro _ rfl
    have hcontent : contentOf [{ (l.drop depth).trimStart with text := headingText (l.drop depth).trimStart.text }] =
        headingText (trimStart more) := by
      show headingText (l.drop depth).trimStart.text = _
      rw [Line.trimStart_text, Line.drop, hl, List.drop_left' List.length_replicate]
    rw [← hread, ← hcontent, ← erase_trees_readLines]
    exact Tree.erase_node ..

theorem interrupts_marked (t : Tree Unit) : Block.Interrupts ⟨t, mark, [List.replicate depth '#' ++ more]⟩ := by
  rintro _ ⟨⟩ s - - l hl
  exact (s.chunk_marked .null hone hsix hl hmore []).2

end

theorem stands_rule (r : RuleMark) : Block.Stands o ⟨.node () .thematicBreak [], mark, [List.replicate 3 r.char]⟩ := by
  have hline : isBlank r.char = false ∧ r.char ≠ '>' ∧ r.char ≠ '[' ∧ isRule (List.replicate 3 r.char) = true := by
    cases r <;> decide
  refine stands_of_head o mark hline.1 hline.2.1 (.inl hline.2.2.2) (taskBox?_eq_none hline.2.2.1) ?_
    fun room _ inItem ls rest hls _ => ?_
  · rintro _ ⟨⟩
    simp [hline.1]
  · obtain ⟨l, rfl, hl⟩ := List.map_eq_singleton_iff.1 hls
    refine (Setting.cuts_rule r hl).mono ?_
    rintro _ ⟨span, rfl⟩
    rfl

theorem interrupts_rule (t : Tree Unit) (r : RuleMark) : Block.Interrupts ⟨t, mark, [List.replicate 3 r.char]⟩ := by
  rintro _ ⟨⟩ s - - l hl
  exact (s.chunk_rule .null r hl []).2

section

variable {fence : Char} {info value : List Char} (hfence : fence = '\x60' ∨ fence = '~')
  (hopen : fence = '\x60' → '\x60' ∉ info)
include hfence hopen

theorem stands_code {lang details : Option (List Char)} (hwords : IsWords lang details)
    (hinfo : info = infoText lang details) (hcloses : info.head? ≠ some fence) : Block.Stands o
      ⟨.node () (.codeBlock (String.ofList value) (optionText lang) (optionText details)) [], mark,
        codeLines fence info value⟩ := by
  obtain ⟨n, hn⟩ := exists_fenceOf fence value
  have hmarks : isBlank fence = false ∧ fence ≠ '>' ∧ fence ≠ '[' ∧ (fence ≠ '-' ∧ fence ≠ '+' ∧ fence ≠ '*') ∧
      isDigit fence = false := by
    rcases hfence with rfl | rfl <;> decide +kernel
  have hlines : codeLines fence info value =
      (fence :: (List.replicate n fence ++ info)) :: (valueLines value ++ [fenceOf fence value]) := by
    rw [codeLines, hn]
    rfl
  rw [hlines]
  refine stands_of_head o mark hmarks.1 hmarks.2.1 (.inr (marker?_eq_none_of_head hmarks.2.2.2.1 hmarks.2.2.2.2))
    (taskBox?_eq_none hmarks.2.2.1) ?_ fun room _ inItem ls rest hls _ => ?_
  · rw [← List.cons_append, List.getLast?_concat]
    rintro _ ⟨⟩
    rw [hn, List.all_cons, hmarks.1, Bool.false_and]
  · rw [← hlines] at hls
    have hwords' : (codeFence fence info value).words = (lang, details) := by
      refine hwords.words_eq ?_
      rw [codeFence, ← hinfo]
      cases info with
      | nil => rfl
      | cons c cs =>
        show (c :: cs).dropWhile (· == fence) = c :: cs
        refine List.dropWhile_cons_of_neg ?_
        simpa using hcloses
    refine (Setting.cuts_code hfence hopen hcloses hls).mono ?_
    rintro _ ⟨span, notes, rfl⟩
    rw [hwords']
    rfl

theorem interrupts_code (t : Tree Unit) : Block.Interrupts ⟨t, mark, codeLines fence info value⟩ := by
  rintro _ ⟨⟩ s - - l hl
  obtain ⟨n, hn⟩ := exists_fenceOf fence value
  have hhead : l.text = fence :: (List.replicate n fence ++ info) := by rw [hl, hn]; rfl
  have hblank := isBlank_of_fence hfence
  have hopens : Fence.opening? l.text = some (codeFence fence info value) := by
    rw [hl]
    exact opening?_codeFence hfence hopen
  unfold Setting.interrupts
  dsimp only
  rw [Line.indent_of_head hhead hblank, Line.trimStart_of_head hhead hblank, if_neg (by decide), hopens]
  simp

end

end

/-! ### Quotes -/

theorem quoteLine_eq (line : List Char) : ∃ cs, quoteLine line = '>' :: cs := by
  unfold quoteLine
  split <;> exact ⟨_, rfl⟩

theorem rowLines_ne_nil {row : List Block} (h : ∀ b ∈ row, b.lines ≠ []) (tight : Bool) : rowLines tight row ≠ [] := by
  cases row with
  | nil => exact List.cons_ne_nil _ _
  | cons b row =>
    have hb := h b (.head _)
    cases row with
    | nil => exact hb
    | cons d row => exact fun hnil => hb (List.append_eq_nil_iff.1 (List.append_eq_nil_iff.1 hnil).1).1

theorem head?_rowLines {b : Block} {line : List Char} (h : line ∈ b.lines.head?) (tight : Bool) (row : List Block) :
    (rowLines tight (b :: row)).head? = some line := by
  obtain ⟨rest, hlines⟩ := List.head?_eq_some_iff.1 h
  cases row <;> simp [rowLines, spacedLines, hlines]

section

variable {o} (mark : Char) {row : List Block} (hstands : ∀ b ∈ row, b.Stands o)
include hstands

theorem lines_ne_nil : ∀ b ∈ row, b.lines ≠ [] := by
  intro b hb
  obtain ⟨line, rest, hlines, -⟩ := (hstands b hb).head
  rw [hlines]
  exact List.cons_ne_nil _ _

/-- A quote of a row of blocks stands as one. -/
theorem stands_quote (hmeets : row.IsChain (Block.Meets false)) : Block.Stands o
    ⟨.node () .blockQuote (row.map Block.tree), mark, (rowLines false row).map quoteLine⟩ := by
  have hne := rowLines_ne_nil (lines_ne_nil hstands) false
  obtain ⟨first, more, hlines⟩ := List.exists_cons_of_ne_nil hne
  obtain ⟨cs, hcs⟩ := quoteLine_eq first
  constructor
  · exact ⟨quoteLine first, more.map quoteLine, by rw [hlines, List.map_cons], '>', by rw [hcs]; rfl, by decide,
      fun _ => rfl⟩
  · rw [hlines]
    rintro _ ⟨⟩ tab l m hl hread
    rw [hcs] at hl
    rw [Marker.read?_eq_none hl (by decide) (.inr (marker?_eq_none_of_head (by decide) (by decide +kernel)))] at hread
    cases hread
  · rw [hlines]
    rintro _ ⟨⟩
    rw [hcs]
    exact taskBox?_eq_none (by decide)
  · intro line hline
    obtain ⟨inner, -, rfl⟩ := List.mem_map.1 (List.mem_of_getLast? hline)
    obtain ⟨ds, hds⟩ := quoteLine_eq inner
    rw [hds]
    rfl
  · intro room hroom inItem ls rest hls hends
    obtain ⟨room, rfl⟩ := Nat.exists_eq_add_of_le' (show 1 ≤ room from Nat.le_trans (Nat.le_add_left _ _) hroom)
    have hbelow : ∀ b ∈ row, b.tree.nesting ≤ room := fun b hb =>
      Nat.le_trans (Tree.nesting_le_nestingList (List.mem_map_of_mem hb)) (Nat.le_of_succ_le_succ hroom)
    refine (Setting.cuts_quote rfl hne hls hends).mono ?_
    rintro _ ⟨span, inner, rfl, hinner⟩
    obtain ⟨htrees, -⟩ := readBlocks_row (show false = true → false = true from id) hstands hmeets hbelow hinner
    rw [← htrees]
    exact Tree.erase_node ..

omit hstands in
theorem interrupts_quote (hne : rowLines false row ≠ []) : Block.Interrupts
    ⟨.node () .blockQuote (row.map Block.tree), mark, (rowLines false row).map quoteLine⟩ := by
  obtain ⟨first, more, hlines⟩ := List.exists_cons_of_ne_nil hne
  obtain ⟨cs, hcs⟩ := quoteLine_eq first
  rw [hlines]
  rintro _ ⟨⟩ s hs - l hl
  exact Setting.interrupts_quote (hs (Nat.succ_ne_zero _)) (hl.trans hcs)

end

/-! ### Lists -/

variable {o}

/-- Whether a node is an item with blank lines between its blocks. -/
def isSpread (t : Tree Unit) : Bool :=
  match t.content with
  | .listItem spread _ => spread
  | _ => false

/-- The lines inside an item are read as the blocks of it. -/
def ItemReads (o : ScanOptions) (t : Tree Unit) (r : ItemRow) : Prop :=
  ∃ spread ts, t = .node () (.listItem spread ((taskBox? r.first).map (·.1))) ts ∧
    ∀ room, Tree.nestingList ts ≤ room → ∀ ls : List Line, ls.map Line.text = r.content →
      (readBlocks o room true ls).trees.map Tree.erase = ts ∧ (readBlocks o room true ls).loose = spread

/-- The last of several rows of lines ends with the line that its last row ends with. -/
theorem exists_getLast?_spacedLines (loose : Bool) {rows : List (List (List Char))} (hne : ∀ row ∈ rows, row ≠ [])
    {line : List Char} (h : line ∈ (spacedLines loose rows).getLast?) : ∃ row ∈ rows, line ∈ row.getLast? := by
  induction rows with
  | nil => cases h
  | cons row rows ih =>
    cases rows with
    | nil => exact ⟨row, .head _, h⟩
    | cons next rows =>
      have hrest : spacedLines loose (next :: rows) ≠ [] := by
        cases rows with
        | nil => exact hne next (.tail _ (.head _))
        | cons after rows =>
          exact fun hnil => hne next (.tail _ (.head _)) (List.append_eq_nil_iff.1 (List.append_eq_nil_iff.1 hnil).1).1
      have hlast : (spacedLines loose (row :: next :: rows)).getLast? = (spacedLines loose (next :: rows)).getLast? :=
        List.getLast?_append_of_ne_nil _ hrest
      rw [hlast] at h
      obtain ⟨last, hmem, hline⟩ := ih (fun x hx => hne x (.tail _ hx)) h
      exact ⟨last, .tail _ hmem, hline⟩

private theorem ItemRow.Stands.getLast? {ordered : Bool} {symbol : Char} {r : ItemRow} (h : r.Stands ordered symbol) :
    ∀ line ∈ r.lines.getLast?, line.all isBlank = false := by
  intro line hline
  rcases List.eq_nil_or_concat' r.more with hmore | ⟨init, last, hmore⟩
  · obtain ⟨c, cs, htext, hblank, -⟩ := r.exists_head h (l := ⟨r.opening, 0⟩) rfl
    rw [ItemRow.lines, hmore, List.map_nil, List.getLast?_singleton] at hline
    cases hline
    rw [show r.opening = c :: cs from htext, List.all_cons, hblank, Bool.false_and]
  · have hlast := h.last last (by rw [hmore, List.getLast?_concat]; rfl)
    rw [ItemRow.lines, hmore, List.map_append, List.map_singleton, ← List.cons_append, List.getLast?_concat] at hline
    cases hline
    have hne : last.isEmpty = false := by
      cases last with
      | nil => cases hlast
      | cons => rfl
    rw [indentLine, hne, if_neg (by decide), List.all_append, hlast, Bool.and_false]

/-- The items of a list are read as what they hold. -/
private theorem forall₂_itemTree {rows : List ItemRow} {ts : List (Tree Unit)}
    (hts : List.Forall₂ (ItemReads o) ts rows)
    {items : List ItemChunk} (hitems : List.Forall₂ ItemRow.Heard rows items) {room : Nat}
    (hroom : Tree.nestingList ts ≤ room) :
    (items.map fun item => (itemTree (readBlocks o room) item).1.erase) = ts ∧
      (items.any fun item => (itemTree (readBlocks o room) item).2.2) = ts.any isSpread := by
  induction hts generalizing items with
  | nil =>
    cases hitems
    exact ⟨rfl, rfl⟩
  | @cons t r ts rows ht _ ih =>
    obtain ⟨item, rest, hitem, hothers, rfl⟩ := List.forall₂_cons_left_iff.1 hitems
    obtain ⟨spread, children, rfl, hreads⟩ := ht
    obtain ⟨hchildren, hrest⟩ := Nat.max_le.1 hroom
    obtain ⟨htrees, hloose⟩ := hreads room hchildren item.lines hitem.lines
    obtain ⟨hts, hspread⟩ := ih hothers hrest
    constructor
    · rw [List.map_cons, hts, itemTree, Tree.erase_node, htrees, hloose, hitem.checked]
    · rw [List.any_cons, hspread, itemTree, hloose]
      rfl

section

variable {ordered : Bool} {symbol : Char} (loose : Bool) {r : ItemRow} {rows : List ItemRow}
  (hrows : ∀ x ∈ r :: rows, x.Stands ordered symbol)
include hrows

theorem spacedLines_items : ∃ more, spacedLines loose ((r :: rows).map ItemRow.lines) = r.opening :: more := by
  cases rows <;> exact ⟨_, rfl⟩

/-- A list of items that hold rows of blocks stands as one. -/
theorem stands_list {ts : List (Tree Unit)} (hts : List.Forall₂ (ItemReads o) ts (r :: rows)) : Block.Stands o
    ⟨.node () (.list ordered (r.number.map fun n => (n : Int)) ((loose && !rows.isEmpty) || ts.any isSpread)) ts,
      symbol, spacedLines loose ((r :: rows).map ItemRow.lines)⟩ := by
  have hr := hrows r (.head _)
  obtain ⟨more, hlines⟩ := spacedLines_items loose hrows
  obtain ⟨c, cs, htext, hblank, -, -, -, hquote, hbox⟩ := r.exists_head hr (l := ⟨r.opening, 0⟩) rfl
  constructor
  · refine ⟨r.opening, more, hlines, c, ?_, hblank, fun h => absurd h hquote⟩
    rw [show r.opening = c :: cs from htext]
    rfl
  · rw [hlines]
    rintro _ ⟨⟩ tab l m hl hread
    obtain ⟨-, rfl, hsymbol, -⟩ := r.marker_of_read? hr hl hread
    exact ⟨_, _, rfl, hsymbol⟩
  · rw [hlines]
    rintro _ ⟨⟩
    rw [show r.opening = c :: cs from htext]
    exact taskBox?_eq_none hbox
  · intro line hline
    have hne : ∀ row ∈ (r :: rows).map ItemRow.lines, row ≠ [] := List.forall_mem_map.2 fun _ _ => List.cons_ne_nil _ _
    obtain ⟨_, hrow, hlast⟩ := exists_getLast?_spacedLines loose hne hline
    obtain ⟨x, hx, rfl⟩ := List.mem_map.1 hrow
    exact (hrows x hx).getLast? line hlast
  · intro room hroom inItem ls rest hls hends
    obtain ⟨room, rfl⟩ := Nat.exists_eq_add_of_le' (show 1 ≤ room from Nat.le_trans (Nat.le_add_left _ _) hroom)
    refine (Setting.cuts_list rfl o.tabSize_pos loose hrows hls hends).mono ?_
    rintro _ ⟨m, items, rfl, hnumber, hheard, hapart⟩
    obtain ⟨htrees, hany⟩ := forall₂_itemTree hts hheard (Nat.le_of_succ_le_succ hroom)
    have hordered : m.ordered = ordered := by rw [Marker.ordered, hnumber, hr.ordered]
    show Tree.erase (.node _ _ _) = _
    rw [Tree.erase_node, List.map_map, List.map_map, List.any_map, hordered, hnumber, hapart]
    exact congrArg₂ (fun spread ts => Tree.node () (.list ordered _ (_ || spread)) ts) hany htrees

theorem interrupts_list (t : Tree Unit) (ht : t.nesting ≠ 0) :
    Block.Interrupts ⟨t, symbol, spacedLines loose ((r :: rows).map ItemRow.lines)⟩ := by
  obtain ⟨more, hlines⟩ := spacedLines_items loose hrows
  rw [hlines]
  rintro _ ⟨⟩ s hs hitem l hl
  obtain ⟨m, hread, -⟩ := r.read?_opening (hrows r (.head _)) hl s.tab
  exact Setting.interrupts_marker hread (hs ht) hitem

end

end MarkdownTree.Scan
