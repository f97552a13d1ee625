import MarkdownTree.Proofs.Column
import MarkdownTree.Proofs.LineTexts

/-!
# Lines put into containers

A quote mark before every line makes one quote of them (`segments_quote`), and a marker before the first line with the
others indented as far as its content makes one item (`segments_item`).  Cutting takes off again what was put before the
lines, so what stands in the container reads as it does outside (`readBlocks_quote`, `readBlocks_item`).
-/

namespace MarkdownTree.Scan

open Text

/-- A line with a quote mark before it. -/
def quoteLine (line : List Char) : List Char :=
  if line.isEmpty then ['>'] else '>' :: ' ' :: line

/-- A line indented by so many spaces, unless there is nothing to indent. -/
def indentLine (width : Nat) (line : List Char) : List Char :=
  if line.isEmpty then [] else List.replicate width ' ' ++ line

theorem notMem_quoteLine {c : Char} (hc : c ≠ '>') (hspace : c ≠ ' ') {line : List Char} (h : c ∉ line) :
    c ∉ quoteLine line := by
  unfold quoteLine
  split <;> simp [hc, hspace, h]

theorem notMem_indentLine {c : Char} (hspace : c ≠ ' ') (width : Nat) {line : List Char} (h : c ∉ line) :
    c ∉ indentLine width line := by
  unfold indentLine
  split <;> simp [hspace, h]

/-- A list marker as it is written, with the number that it gives its list. -/
inductive IsMarker : List Char → Option Nat → Prop
  | bullet {c : Char} (hc : c = '-' ∨ c = '+' ∨ c = '*') : IsMarker [c] none
  | ordered {ds : List Char} {d : Char} (hne : ds ≠ []) (hlen : ds.length ≤ 9) (hds : ∀ c ∈ ds, isDigit c = true)
    (hd : d = '.' ∨ d = ')') : IsMarker (ds ++ [d]) (some (natOfDigits ds))

namespace IsMarker

variable {mark : List Char} {number : Option Nat}

theorem not_blank (h : IsMarker mark number) : ∀ c ∈ mark, isBlank c = false := by
  cases h with
  | bullet hc =>
    rintro c (_ | ⟨_, hnil⟩)
    · rcases hc with rfl | rfl | rfl <;> decide
    · cases hnil
  | ordered hne hlen hds hd =>
    intro c hc
    rcases List.mem_append.1 hc with hc | hc
    · exact isBlank_of_isDigit (hds c hc)
    · rw [List.mem_singleton.1 hc]
      rcases hd with rfl | rfl <;> decide

theorem length_le (h : IsMarker mark number) : mark.length ≤ 10 := by
  cases h with
  | bullet => simp
  | ordered hne hlen =>
    rw [List.length_append, List.length_singleton]
    omega

theorem head (h : IsMarker mark number) : ∃ c rest, mark = c :: rest ∧ isBlank c = false ∧ c ≠ '#' ∧ c ≠ '\x60' ∧
    c ≠ '~' ∧ c ≠ '>' ∧ c ≠ '[' := by
  cases h with
  | @bullet c hc => exact ⟨c, [], rfl, by rcases hc with rfl | rfl | rfl <;> decide⟩
  | @ordered ds d hne hlen hds hd =>
    obtain ⟨c, rest, rfl⟩ := List.exists_cons_of_ne_nil hne
    have hc := hds c (.head _)
    refine ⟨c, rest ++ [d], rfl, isBlank_of_isDigit hc, ?_, ?_, ?_, ?_, ?_⟩ <;>
      (rintro rfl; exact absurd hc (by decide))

theorem marker?_eq (h : IsMarker mark number) {rest : List Char} (hrest : endsOrGap rest = true) :
    ∃ symbol, mark.getLast? = some symbol ∧ marker? (mark ++ rest) = some (symbol, number, mark.length) := by
  cases h with
  | @bullet c hc =>
    refine ⟨c, rfl, ?_⟩
    rw [List.singleton_append, marker?, if_pos ⟨hc, hrest⟩]
    rfl
  | @ordered ds d hne hlen hds hd =>
    refine ⟨d, List.getLast?_concat, ?_⟩
    have hd' : isDigit d = false := by rcases hd with rfl | rfl <;> decide
    have htake : (ds ++ [d] ++ rest).takeWhile isDigit = ds := by
      rw [List.append_assoc, List.takeWhile_append_of_pos hds, List.singleton_append, List.takeWhile_cons, hd']
      simp
    have hlen' := List.length_pos_of_ne_nil hne
    obtain ⟨c, cs, rfl⟩ := List.exists_cons_of_ne_nil hne
    have hc := hds c (.head _)
    have hmark : ¬(c = '-' ∨ c = '+' ∨ c = '*') := by
      rintro (rfl | rfl | rfl) <;> exact absurd hc (by decide)
    unfold marker?
    dsimp only [List.cons_append] at htake ⊢
    rw [if_neg (fun h => hmark h.1), htake]
    simp only [List.append_assoc, List.length_cons, List.drop_succ_cons, List.drop_left, List.singleton_append]
    rw [if_pos ⟨by omega, hlen, hd, hrest⟩]
    simp

private theorem opensFrontMatter_eq_false (h : IsMarker mark number) (rest : List Char) :
    opensFrontMatter (mark ++ ' ' :: rest) = false := by
  cases h with
  | bullet => simp [opensFrontMatter]
  | @ordered ds d hne hlen hds hd =>
    obtain ⟨c, cs, rfl⟩ := List.exists_cons_of_ne_nil hne
    have hc : '-' ≠ c := by
      rintro rfl
      exact absurd (hds '-' (.head _)) (by decide)
    simp [opensFrontMatter, hc]

end IsMarker

namespace Setting

variable (s : Setting)

/-! ### Quotes -/

theorem quoted?_quoteLine {l : Line} {line : List Char} (h : l.text = quoteLine line) :
    ∃ inner, s.quoted? l = some inner ∧ inner.text = line := by
  obtain ⟨rest, hrest⟩ : ∃ rest, quoteLine line = '>' :: rest := by
    unfold quoteLine
    split <;> exact ⟨_, rfl⟩
  have hhead := h.trans hrest
  have hquote : isBlank '>' = false := by decide
  unfold quoted?
  rw [Line.isBlank_of_head hhead hquote, Line.indent_of_head hhead hquote, Line.trimStart_of_head hhead hquote]
  rw [if_neg (by decide)]
  dsimp only [Line.drop]
  rw [h]
  cases line with
  | nil => exact ⟨_, rfl, rfl⟩
  | cons c cs => exact ⟨_, rfl, rfl⟩

theorem text_quotedLines {ls : List Line} {lines : List (List Char)} (h : ls.map Line.text = lines.map quoteLine) :
    (s.quotedLines ls).map Line.text = lines := by
  induction ls generalizing lines with
  | nil =>
    rw [List.map_nil, eq_comm, List.map_eq_nil_iff] at h
    rw [h]
    rfl
  | cons l ls ih =>
    cases lines with
    | nil => cases h
    | cons line lines =>
      rw [List.map_cons, List.map_cons, List.cons.injEq] at h
      obtain ⟨inner, hinner, htext⟩ := s.quoted?_quoteLine h.1
      rw [quotedLines, hinner, List.map_cons, htext, ih h.2]

theorem segments_quote (hs : s.containers = true) (limit : Value) (gap : Bool) {ls : List Line}
    {lines : List (List Char)} (hne : lines ≠ []) (h : ls.map Line.text = lines.map quoteLine) :
    ∃ span inner, s.segments limit gap ls = [⟨gap, .quote span inner⟩] ∧ inner.map Line.text = lines := by
  have hinner := s.text_quotedLines h
  obtain ⟨line, lines, rfl⟩ := List.exists_cons_of_ne_nil hne
  obtain ⟨l, ls, rfl⟩ : ∃ l ls', ls = l :: ls' := by
    cases ls with
    | nil => cases h
    | cons l ls => exact ⟨l, ls, rfl⟩
  have hlength := congrArg List.length hinner
  have hsame := congrArg List.length h
  simp only [List.length_map, List.length_cons] at hlength hsame
  have hquote : isBlank '>' = false := by decide
  obtain ⟨rest, hhead⟩ : ∃ rest, l.text = '>' :: rest := by
    rw [(List.cons.inj h).1, quoteLine]
    split <;> exact ⟨_, rfl⟩
  have hchunk : s.chunk limit l ls = s.quote l ls := by
    unfold chunk
    dsimp only
    rw [Line.indent_of_head hhead hquote, Line.trimStart_of_head hhead hquote, if_neg (by decide), hhead,
      opening?_eq_none (by decide) (by decide)]
    dsimp only
    rw [headingDepth?_eq_none (by decide)]
    dsimp only
    rw [isRule_eq_false (by decide) (by decide) (by decide), if_neg (by decide), hs, if_pos (by rfl)]
  have htaken : (s.quote l ls).2 = ls.length := by
    rw [quote]
    omega
  have hsegments : s.segments limit gap (l :: ls) = [⟨gap, (s.quote l ls).1⟩] := by
    rw [segments, if_neg (by rw [Line.isBlank_of_head hhead hquote]; decide), hchunk]
    dsimp only
    rw [htaken, List.drop_length, segments]
  exact ⟨_, _, hsegments, hinner⟩

/-! ### Items -/

theorem text_itemLines (hs : 0 < s.tab) {width : Nat} (hwidth : width ≤ 2 ^ 53) (previous : Line)
    (fence : Option Fence) {ls : List Line} {lines : List (List Char)}
    (h : ls.map Line.text = lines.map (indentLine width)) :
    (s.itemLines width previous fence ls).map Line.text = lines := by
  induction ls generalizing lines previous fence with
  | nil =>
    rw [List.map_nil, eq_comm, List.map_eq_nil_iff] at h
    rw [h]
    rfl
  | cons l ls ih =>
    cases lines with
    | nil => cases h
    | cons line lines =>
      rw [List.map_cons, List.map_cons, List.cons.injEq] at h
      obtain ⟨hl, hls⟩ := h
      have hdrop : (l.dropColumns s.tab width).text = line := by
        cases line with
        | nil =>
          rw [Line.dropColumns, Line.drop, hl]
          rfl
        | cons c cs => exact Line.text_dropColumns_spaces s.tab width hl
      -- A line that is not blank is not empty, so it is indented.
      have hkept (hblank : ¬l.isBlank = true) : (width : ℚ) ≤ l.indent s.tab := by
        cases line with
        | nil =>
          refine absurd ?_ hblank
          rw [Line.isBlank, hl]
          rfl
        | cons c cs => exact Line.le_indent_spaces hs hwidth hl
      rw [itemLines]
      dsimp only
      split_ifs with hblank hindent
      · rw [List.map_cons, hdrop, ih _ _ hls]
      · rw [List.map_cons, hdrop, ih _ _ hls]
      · exact absurd (hkept hblank) hindent
      · exact absurd (hkept hblank) hindent

private theorem item_of_lines (hs : 0 < s.tab) {m : Marker} {width : Nat} (hwidth : width ≤ 2 ^ 53)
    (hm : m.contentIndent = width) {ls : List Line} {lines : List (List Char)}
    (h : ls.map Line.text = lines.map (indentLine width)) (hlast : ∀ line ∈ lines.getLast?, line.all isBlank = false) :
    (s.item m ls).2 = ls.length ∧ (s.item m ls).1.checked = (taskBox? m.content.text).map (·.1) ∧
      (s.item m ls).1.trailingBlank = false ∧
      (s.item m ls).1.lines.map Line.text =
        m.content.text.drop (((taskBox? m.content.text).map (·.2)).getD 0) :: lines := by
  have hmore (previous : Line) (fence : Option Fence) :
      (s.itemLines width previous fence ls).map Line.text = lines ∧
        dropEndWhile Line.isBlank (s.itemLines width previous fence ls) = s.itemLines width previous fence ls := by
    have htext := s.text_itemLines hs hwidth previous fence h
    refine ⟨htext, ?_⟩
    -- The last line says something, so no blank lines are cut off.
    refine dropEndWhile_eq_self fun last hend => hlast last.text ?_
    rw [← htext, List.getLast?_map, Option.mem_def.1 hend]
    rfl
  have hlength : lines.length = ls.length := by
    have := congrArg List.length h
    simpa using this.symm
  have hsize (previous : Line) (fence : Option Fence) :
      (s.itemLines width previous fence ls).length = ls.length := by
    have := congrArg List.length (hmore previous fence).1
    rwa [List.length_map, hlength] at this
  unfold item
  dsimp only
  rw [hm]
  cases taskBox? m.content.text with
  | none =>
    simp only [(hmore _ _).2, (hmore _ _).1, hsize, List.map_cons, Option.map_none, Option.getD_none, List.drop_zero,
      lt_irrefl, decide_false, and_self]
  | some box =>
    simp only [(hmore _ _).2, (hmore _ _).1, hsize, List.map_cons, Option.map_some, Option.getD_some, Line.drop,
      lt_irrefl, decide_false, and_self]

variable {mark : List Char} {number : Option Nat} (hmark : IsMarker mark number) {c : Char} {cs : List Char}
  (hc : isBlank c = false) (hrule : isRule (mark ++ ' ' :: c :: cs) = false) {l : Line}
  (hl : l.text = mark ++ ' ' :: c :: cs)
include hmark hc hrule hl

theorem read?_item (tab : Rat) : ∃ m, Marker.read? tab l = some m ∧ m.number = number ∧
    m.contentIndent = (mark.length + 1 : Nat) ∧ m.content.text = c :: cs := by
  obtain ⟨symbol, -, hread⟩ := hmark.marker?_eq (show endsOrGap (' ' :: c :: cs) = true from rfl)
  obtain ⟨d, rest, hhead, hd, -⟩ := hmark.head
  have htext : l.text = d :: (rest ++ ' ' :: c :: cs) := by rw [hl, hhead, List.cons_append]
  have hrest : (l.drop mark.length).text = ' ' :: c :: cs := by rw [Line.drop, hl, List.drop_left]
  have hblank : (l.drop mark.length).isBlank = false := by
    rw [Line.isBlank, hrest, List.all_cons, List.all_cons, hc, Bool.false_and, Bool.and_false]
  have hspaces : (l.drop mark.length).indent tab = (1 : Nat) := by
    have hone := Line.indentFrom_spaces tab 0 1 (c :: cs)
    rw [Line.indentFrom_of_head hc] at hone
    rw [Line.indent, hrest]
    exact hone
  unfold Marker.read?
  dsimp only
  rw [Line.indent_of_head htext hd, Line.trimStart_of_head htext hd, hl, if_neg (by rw [hrule]; decide), hread]
  dsimp only [Option.map_some]
  rw [hblank, hspaces, if_neg (by decide), if_neg (by decide), zero_add, settle_natCast, ← Nat.cast_add, settle_natCast]
  exact ⟨_, rfl, rfl, rfl, Line.text_dropColumns_spaces tab 1 hrest⟩

theorem segments_item (hs : s.containers = true) (htab : 0 < s.tab) (limit : Value) (gap : Bool) {ls : List Line}
    {lines : List (List Char)} (hls : ls.map Line.text = lines.map (indentLine (mark.length + 1)))
    (hlast : ∀ line ∈ lines.getLast?, line.all isBlank = false) :
    ∃ m item, s.segments limit gap (l :: ls) = [⟨gap, .list m [item]⟩] ∧ m.number = number ∧
      item.checked = (taskBox? (c :: cs)).map (·.1) ∧ item.trailingBlank = false ∧
      item.lines.map Line.text = (c :: cs).drop (((taskBox? (c :: cs)).map (·.2)).getD 0) :: lines := by
  obtain ⟨m, hread, hnumber, hindent, hcontent⟩ := read?_item hmark hc hrule hl s.tab
  obtain ⟨d, rest, hhead, hd, hhash, htick, htilde, hquote, -⟩ := hmark.head
  have htext : l.text = d :: (rest ++ ' ' :: c :: cs) := by rw [hl, hhead, List.cons_append]
  have hwidth : mark.length + 1 ≤ 2 ^ 53 := by
    have := hmark.length_le
    omega
  obtain ⟨htaken, hchecked, htrailing, hlines⟩ := s.item_of_lines htab hwidth hindent hls hlast
  rw [hcontent] at hchecked hlines
  have hitems : s.items m ls = ([(s.item m ls).1], ls.length) := by
    rw [items_eq, htaken, List.drop_length]
  have hchunk : s.chunk limit l ls = (.list m [(s.item m ls).1], ls.length) := by
    unfold chunk
    dsimp only
    rw [Line.indent_of_head htext hd, Line.trimStart_of_head htext hd, if_neg (by decide), htext,
      opening?_eq_none htick htilde]
    dsimp only
    rw [headingDepth?_eq_none hhash]
    dsimp only
    rw [← htext, hl, hrule, if_neg (by decide), ← hl, htext, hs, if_neg (by simpa using hquote), if_pos rfl, hread]
    dsimp only
    rw [hitems]
  refine ⟨m, (s.item m ls).1, ?_, hnumber, hchecked, htrailing, hlines⟩
  rw [segments, if_neg (by rw [Line.isBlank_of_head htext hd]; decide), hchunk]
  dsimp only
  rw [List.drop_length, segments]

end Setting

/-! ### Blocks -/

private theorem erase_readBlocks (o : ScanOptions) (room : Nat) (inItem : Bool) {ls ms : List Line}
    (h : ls.map Line.text = ms.map Line.text) :
    (readBlocks o room inItem ls).trees.map Tree.erase = (readBlocks o room inItem ms).trees.map Tree.erase ∧
      (readBlocks o room inItem ls).loose = (readBlocks o room inItem ms).loose :=
  have halike := alike_readBlocks (f := id) (o := o) rfl rfl room inItem ls ms (Line.forall₂_alike_iff.2 h)
  ⟨halike.trees, halike.loose⟩

/-- Lines with quote marks read as a quote of what they read as without. -/
theorem readBlocks_quote (o : ScanOptions) (room : Nat) (inItem : Bool) {ls ms : List Line} (hne : ms ≠ [])
    (h : ls.map Line.text = (ms.map Line.text).map quoteLine) :
    (readBlocks o (room + 1) inItem ls).trees.map Tree.erase =
        [.node () .blockQuote ((readBlocks o room false ms).trees.map Tree.erase)] ∧
      (readBlocks o (room + 1) inItem ls).loose = false := by
  obtain ⟨span, inner, hsegments, hinner⟩ :=
    Setting.segments_quote ⟨o.tabSize, true, inItem⟩ rfl o.nestingLimit false (by simpa using hne) h
  obtain ⟨htrees, -⟩ := erase_readBlocks o room false hinner
  rw [readBlocks, hsegments]
  refine ⟨?_, rfl⟩
  rw [← htrees]
  simp only [assemble, chunkTree, List.map_cons, List.map_nil, Tree.erase_node]

/-- Lines behind a marker and as much indentation read as a list of one item of what they read as without. -/
theorem readBlocks_item (o : ScanOptions) (room : Nat) (inItem : Bool) {mark : List Char} {number : Option Nat}
    (hmark : IsMarker mark number) {c : Char} {cs : List Char} (hc : isBlank c = false)
    (hrule : isRule (mark ++ ' ' :: c :: cs) = false) {ls ms : List Line} {lines : List (List Char)}
    (hls : ls.map Line.text = (mark ++ ' ' :: c :: cs) :: lines.map (indentLine (mark.length + 1)))
    (hms : ms.map Line.text = (c :: cs).drop (((taskBox? (c :: cs)).map (·.2)).getD 0) :: lines)
    (hlast : ∀ line ∈ lines.getLast?, line.all isBlank = false) :
    let blocks := readBlocks o room true ms
    (readBlocks o (room + 1) inItem ls).trees.map Tree.erase =
        [.node () (.list number.isSome (number.map fun n => (n : Int)) blocks.loose)
          [.node () (.listItem blocks.loose ((taskBox? (c :: cs)).map (·.1))) (blocks.trees.map Tree.erase)]] ∧
      (readBlocks o (room + 1) inItem ls).loose = false := by
  intro blocks
  obtain ⟨l, ls, rfl⟩ : ∃ l ls', ls = l :: ls' := by
    cases ls with
    | nil => cases hls
    | cons l ls => exact ⟨l, ls, rfl⟩
  rw [List.map_cons, List.cons.injEq] at hls
  obtain ⟨m, item, hsegments, hnumber, hchecked, -, hlines⟩ := Setting.segments_item ⟨o.tabSize, true, inItem⟩ hmark hc
    hrule hls.1 rfl o.tabSize_pos o.nestingLimit false hls.2 hlast
  obtain ⟨htrees, hloose⟩ := erase_readBlocks o room true (hlines.trans hms.symm)
  rw [readBlocks, hsegments]
  refine ⟨?_, rfl⟩
  simp only [assemble, chunkTree, itemTree, itemsApart, List.map_cons, List.map_nil, List.any_cons, List.any_nil,
    Bool.or_false, Bool.false_or, Tree.erase_node, Marker.ordered, hnumber, hchecked, htrees, hloose, blocks]

/-! ### Texts -/

private theorem linesOf_ne_nil {cs : List Char} (h : cs ≠ []) : linesOf cs ≠ [] := by
  intro hnil
  have htexts := congrArg (List.map Line.text) hnil
  rw [linesOf, text_numberLines, List.map_nil, List.map_eq_nil_iff] at htexts
  split at htexts
  · rename_i hlast
    have hjoin := join_fields '\n' cs
    obtain ⟨init, hinit⟩ := List.getLast?_eq_some_iff.1 hlast
    rw [hinit, List.dropLast_concat] at htexts
    rw [hinit, htexts] at hjoin
    exact h hjoin.symm
  · exact fields_ne_nil _ _ htexts

theorem mem_text_linesOf {text line : List Char} (h : line ∈ (linesOf text).map Line.text) {c : Char} (hc : c ∈ line) :
    c ∈ text ∧ c ≠ '\n' := by
  rw [linesOf, text_numberLines] at h
  obtain ⟨part, hpart, rfl⟩ := List.mem_map.1 h
  have hpart : part ∈ fields '\n' text := by
    split at hpart
    · exact List.dropLast_subset _ hpart
    · exact hpart
  have hmem : c ∈ part := (Line.prefix_dropReturn part).subset hc
  refine ⟨?_, fun heq => newline_notMem_fields text part hpart (heq ▸ hmem)⟩
  rw [← join_fields '\n' text]
  exact mem_join hpart hmem

theorem splitDocument_of_head {front : Bool} {text line : List Char} {rest : List (List Char)}
    (h : (linesOf text).map Line.text = line :: rest) (hline : opensFrontMatter line = false) :
    splitDocument front text = ([], linesOf text) := by
  have hnone : frontMatter? (linesOf text) = none := by
    cases hlines : linesOf text with
    | nil => rfl
    | cons l ls =>
      rw [hlines, List.map_cons, List.cons.injEq] at h
      rw [frontMatter?, h.1, hline]
      rfl
  unfold splitDocument
  cases front <;> simp [hnone]

theorem exists_scan (o : ScanOptions) (path : Option String) (text : String) {lines : List Line}
    (h : splitDocument o.frontMatter text.toList = ([], lines)) :
    ∃ t, (scan o path text).tree = some t ∧
      t.erase = .node () .root ((readBlocks o o.maxNesting false lines).trees.map Tree.erase) := by
  refine ⟨_, tree_scan o path text, ?_⟩
  rw [Tree.erase_map, readDocument_eq, h, Tree.erase_node, List.nil_append]

theorem text_linesOf_joined {parts : List (List Char)} (hne : parts ≠ [])
    (hplain : ∀ part ∈ parts, '\n' ∉ part ∧ '\r' ∉ part) (hlast : parts.getLast? ≠ some []) {ending : List Char}
    (hending : ending = [] ∨ ending = ['\n']) : (linesOf (join ['\n'] parts ++ ending)).map Line.text = parts :=
  text_linesOf_join hne (fun part hpart => (hplain part hpart).1)
    (fun part hpart => dropReturn_of_notMem (hplain part hpart).2) (hending.symm.imp_right fun h => ⟨h, hlast⟩)

section

variable (path : Option String) {text : String} (hreturn : '\r' ∉ text.toList) {ending : List Char}
  (hending : ending = [] ∨ ending = ['\n'])
include hreturn hending

omit hending in
private theorem plain_linesOf : ∀ line ∈ (linesOf text.toList).map Line.text, '\n' ∉ line ∧ '\r' ∉ line :=
  fun _ hline => ⟨fun hc => (mem_text_linesOf hline hc).2 rfl, fun hc => hreturn (mem_text_linesOf hline hc).1⟩

private theorem scan_quoted {o p : ScanOptions} (ho : o.frontMatter = false) (hp : p.frontMatter = false)
    (htab : p.tabSize = o.tabSize) (hroom : p.maxNesting = o.maxNesting + 1) (htext : text ≠ "") :
    ∃ t u, (scan o path text).tree = some t ∧
      (scan p path (.ofList (join ['\n'] ((linesOf text.toList).map fun l => quoteLine l.text) ++ ending))).tree
        = some u ∧
      u.erase = .node () .root [.node () .blockQuote (t.children.map Tree.erase)] := by
  have hplain := plain_linesOf hreturn
  have hne := linesOf_ne_nil (mt String.toList_eq_nil_iff.1 htext)
  rw [show (fun l : Line => quoteLine l.text) = quoteLine ∘ Line.text from rfl, ← List.map_map]
  have hparts : (linesOf (join ['\n'] (((linesOf text.toList).map Line.text).map quoteLine) ++ ending)).map Line.text =
      ((linesOf text.toList).map Line.text).map quoteLine := by
    refine text_linesOf_joined (by simpa using hne) (List.forall_mem_map.2 fun line hline => ?_) ?_ hending
    · exact ⟨notMem_quoteLine (by decide) (by decide) (hplain line hline).1,
        notMem_quoteLine (by decide) (by decide) (hplain line hline).2⟩
    · intro hlast
      obtain ⟨line, -, hline⟩ := List.mem_map.1 (List.mem_of_getLast? hlast)
      unfold quoteLine at hline
      split at hline <;> cases hline
  obtain ⟨t, ht, hterase⟩ := exists_scan o path text
    (show splitDocument o.frontMatter text.toList = ([], linesOf text.toList) by rw [ho]; rfl)
  obtain ⟨u, hu, huerase⟩ := exists_scan p path (.ofList (join ['\n'] _ ++ ending)) (by rw [hp]; rfl)
  refine ⟨t, u, ht, hu, ?_⟩
  have hsame := (alike_readBlocks (f := fun _ => ()) htab rfl o.maxNesting false _ _
    (Line.forall₂_alike_iff.2 (rfl : (linesOf text.toList).map Line.text = _))).trees
  rw [huerase, String.toList_ofList, hroom, (readBlocks_quote p o.maxNesting false hne hparts).1, hsame,
    Tree.map_erase_children hterase]

private theorem scan_marked (o : ScanOptions) {c : Char} {cs : List Char} {lines : List (List Char)} {mark : List Char}
    {number : Option Nat} (hlines : (linesOf text.toList).map Line.text = (c :: cs) :: lines) (hc : isBlank c = false)
    (hbox : taskBox? (c :: cs) = none) (hlast : ∀ line ∈ lines.getLast?, line.all isBlank = false)
    (hmark : IsMarker mark number) (hrule : isRule (mark ++ ' ' :: c :: cs) = false) :
    ∃ u, (scan o path (.ofList (join ['\n']
          ((mark ++ ' ' :: c :: cs) :: lines.map (indentLine (mark.length + 1))) ++ ending))).tree = some u ∧
      let blocks := readBlocks o (o.maxNesting - 1) true (linesOf text.toList)
      u.erase = .node () .root
        [.node () (.list number.isSome (number.map fun n => (n : Int)) blocks.loose)
          [.node () (.listItem blocks.loose none) (blocks.trees.map Tree.erase)]] := by
  have hmarkPlain : '\n' ∉ mark ∧ '\r' ∉ mark :=
    ⟨fun h => absurd (hmark.not_blank _ h) (by decide), fun h => absurd (hmark.not_blank _ h) (by decide)⟩
  have hplain := plain_linesOf hreturn
  rw [hlines] at hplain
  obtain ⟨hfirst, hothers⟩ := List.forall_mem_cons.1 hplain
  have hparts : (linesOf (join ['\n'] ((mark ++ ' ' :: c :: cs) :: lines.map (indentLine (mark.length + 1))) ++
      ending)).map Line.text = (mark ++ ' ' :: c :: cs) :: lines.map (indentLine (mark.length + 1)) := by
    refine text_linesOf_joined (by simp) (List.forall_mem_cons.2 ⟨?_, List.forall_mem_map.2 fun line hline => ?_⟩) ?_
      hending
    · simp only [List.mem_append, List.mem_cons, not_or] at hfirst ⊢
      exact ⟨⟨hmarkPlain.1, by decide, hfirst.1⟩, hmarkPlain.2, by decide, hfirst.2⟩
    · exact ⟨notMem_indentLine (by decide) _ (hothers line hline).1,
        notMem_indentLine (by decide) _ (hothers line hline).2⟩
    · rw [List.getLast?_cons, List.getLast?_map]
      cases hend : lines.getLast? with
      | none => simp
      | some line =>
        have hline := hlast line hend
        cases line with
        | nil => cases hline
        | cons d ds => simp [indentLine]
  obtain ⟨u, hu, huerase⟩ := exists_scan o path
    (.ofList (join ['\n'] ((mark ++ ' ' :: c :: cs) :: lines.map (indentLine (mark.length + 1))) ++ ending))
    (splitDocument_of_head (by rw [String.toList_ofList]; exact hparts) (hmark.opensFrontMatter_eq_false _))
  refine ⟨u, hu, ?_⟩
  have hroom : o.maxNesting - 1 + 1 = o.maxNesting := Nat.sub_add_cancel o.maxNesting_pos
  have hblocks := (readBlocks_item o (o.maxNesting - 1) false hmark hc hrule hparts
    (show (linesOf text.toList).map Line.text = _ by rw [hlines, hbox]; rfl) hlast).1
  rw [hroom, hbox] at hblocks
  rw [huerase, String.toList_ofList, hblocks]
  rfl

end

/-- Scanning undoes what puts a text into a container.  With a quote mark before every line it is a quote of what the
text is alone, where one more container may be opened; and with a list marker before its first line, and the others
indented accordingly, it is a list of one item of what its lines are in an item. -/
theorem scan_container (path : Option String) (text : String) (hreturn : '\r' ∉ text.toList) {ending : List Char}
    (hending : ending = [] ∨ ending = ['\n']) :
    (∀ o p : ScanOptions, o.frontMatter = false → p.frontMatter = false → p.tabSize = o.tabSize →
      p.maxNesting = o.maxNesting + 1 → text ≠ "" →
      ∃ t u, (scan o path text).tree = some t ∧
        (scan p path (.ofList (join ['\n'] ((linesOf text.toList).map fun l => quoteLine l.text) ++ ending))).tree
          = some u ∧
        u.erase = .node () .root [.node () .blockQuote (t.children.map Tree.erase)]) ∧
    (∀ (o : ScanOptions) (c : Char) (cs : List Char) (lines : List (List Char)) (mark : List Char)
      (number : Option Nat),
      (linesOf text.toList).map Line.text = (c :: cs) :: lines → isBlank c = false → taskBox? (c :: cs) = none →
      (∀ line ∈ lines.getLast?, line.all isBlank = false) → IsMarker mark number →
      isRule (mark ++ ' ' :: c :: cs) = false →
      ∃ u, (scan o path (.ofList (join ['\n']
            ((mark ++ ' ' :: c :: cs) :: lines.map (indentLine (mark.length + 1))) ++ ending))).tree = some u ∧
        let blocks := readBlocks o (o.maxNesting - 1) true (linesOf text.toList)
        u.erase = .node () .root
          [.node () (.list number.isSome (number.map fun n => (n : Int)) blocks.loose)
            [.node () (.listItem blocks.loose none) (blocks.trees.map Tree.erase)]]) := by
  exact ⟨fun _ _ => scan_quoted path hreturn hending, fun o _ _ _ _ _ => scan_marked path hreturn hending o⟩

/-- Two paragraphs with a blank line between, in a quote and in an item with the number seven. -/
theorem scan_container_paragraphs :
    (∃ t u, (scan { frontMatter := false, maxNesting := 1 } none "a\n\nb").tree = some t ∧
      (scan { frontMatter := false, maxNesting := 2 } none "> a\n>\n> b\n").tree = some u ∧
      u.erase = .node () .root [.node () .blockQuote (t.children.map Tree.erase)]) ∧
    ∃ u, (scan {} none "7) a\n\n   b\n").tree = some u ∧
      let blocks := readBlocks {} 63 true (linesOf "a\n\nb".toList)
      u.erase = .node () .root
        [.node () (.list true (some 7) blocks.loose)
          [.node () (.listItem blocks.loose none) (blocks.trees.map Tree.erase)]] := by
  have hquote : String.ofList (join ['\n'] ((linesOf "a\n\nb".toList).map fun l => quoteLine l.text) ++ ['\n']) =
      "> a\n>\n> b\n" := by decide +kernel
  have hitem : String.ofList (join ['\n'] ((['7', ')'] ++ ' ' :: 'a' :: []) ::
      [[], ['b']].map (indentLine (['7', ')'].length + 1))) ++ ['\n']) = "7) a\n\n   b\n" := by decide +kernel
  have hmark : IsMarker ['7', ')'] (some 7) :=
    .ordered (List.cons_ne_nil '7' []) (by decide) (List.forall_mem_singleton.2 (by decide)) (by decide)
  obtain ⟨hquotes, hitems⟩ := scan_container none "a\n\nb" (by decide) (.inr rfl)
  constructor
  · rw [← hquote]
    exact hquotes { frontMatter := false, maxNesting := 1 } { frontMatter := false, maxNesting := 2 } rfl rfl rfl rfl
      (by decide)
  · rw [← hitem]
    exact hitems {} 'a' [] [[], ['b']] ['7', ')'] (some 7) (by decide +kernel) (by decide) (by decide) (by decide) hmark
      (by decide)

end MarkdownTree.Scan
