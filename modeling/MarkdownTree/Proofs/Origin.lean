import MarkdownTree.Proofs.Progress
import MarkdownTree.Proofs.Taken

/-!
# Where lines and content come from

However deep it is inside containers, a reader forms lines only by cutting something off those that it has (`Formed`),
and remembers for each of them where it starts. So every such line is what the source says from its offset to its end
(`Formed.standsIn`). The rows of lines inside chunks are formed that way (`Within.formed`), and so are the lines that
are handed on as inline content, which come one after the other (`Setting.joined_content`); the places of the content
therefore lead back to its characters in the source (`faithful_readDocument`).
-/

namespace MarkdownTree.Scan

open Text

/-- The lines that are handed on as the inline content of a chunk. -/
def Chunk.content? : Chunk → Option (List Line)
  | .heading _ _ lines _ | .paragraph _ lines _ => some lines
  | _ => none

/-- The lines that are formed when a text is read, for tab stops of a width: those of the text, and what is left of a
line without its indentation, some columns of it, a sign at its start, the gap after a quote mark or something at its
end. -/
inductive Formed (tab : Rat) (text : List Char) : Line → Prop
  | line {l : Line} (h : l ∈ linesOf text) : Formed tab text l
  | trimStart {l : Line} (h : Formed tab text l) : Formed tab text l.trimStart
  | dropColumns {l : Line} (h : Formed tab text l) (columns : Rat) : Formed tab text (l.dropColumns tab columns)
  | headingMark {l : Line} {depth : Nat} (h : Formed tab text l) (hmark : headingDepth? l.text = some depth) :
    Formed tab text (l.drop depth)
  | quoteMark {l : Line} (h : Formed tab text l) (hmark : l.text.head? = some '>') : Formed tab text (l.drop 1)
  | gap {l : Line} {c : Char} (h : Formed tab text l) (hc : l.text.head? = some c) (hgap : isGap c = true) :
    Formed tab text (l.drop 1)
  | listMark {l : Line} {symbol : Char} {number : Option Nat} {size : Nat} (h : Formed tab text l)
    (hmark : marker? l.text = some (symbol, number, size)) : Formed tab text (l.drop size)
  | box {l : Line} {checked : Bool} {size : Nat} (h : Formed tab text l)
    (hbox : taskBox? l.text = some (checked, size)) : Formed tab text (l.drop size)
  | nothing {l : Line} (h : Formed tab text l) : Formed tab text ⟨[], l.stop⟩
  | headingText {l : Line} (h : Formed tab text l) : Formed tab text { l with text := headingText l.text }
  | trimEnd {l : Line} (h : Formed tab text l) : Formed tab text l.trimEnd

/-- The rows of lines that are read inside so many containers, and whether they are those of an item. -/
inductive Inside (o : ScanOptions) (text : List Char) : Nat → Bool → List Line → Prop
  | document : Inside o text 0 false (splitDocument o.frontMatter text).2
  | chunk {depth : Nat} {inItem : Bool} {row : List Line} {seg : Segment} {r : Bool × List Line}
    (h : Inside o text depth inItem row) (hseg : seg ∈ (settingAt o depth inItem).segments o.nestingLimit false row)
    (hrow : r ∈ seg.chunk.rows) : Inside o text (depth + 1) r.1 r.2

variable {tab : Rat} {text : List Char} {l : Line}

/-! ### Lines -/

/-- A line that stands in a text is what the text says there. -/
private theorem Line.StandsIn.slice (h : l.StandsIn text) : (text.take l.stop).drop l.offset = l.text := by
  rw [Line.stop, ← List.take_drop]
  exact (List.prefix_iff_eq_take.1 h.1).symm

private theorem Line.drop_one_endOf {c : Char} (h : l.text.head? = some c) : (l.drop 1).EndOf l := by
  obtain ⟨cs, hcs⟩ := List.head?_eq_some_iff.1 h
  exact Line.drop_endOf (by simp [hcs])

namespace Formed

/-- Lines that are formed stand in the text. -/
theorem standsIn (h : Formed tab text l) : l.StandsIn text := by
  induction h with
  | line h => exact (Line.fit_linesOf text).stands _ h
  | trimStart _ ih => exact (Line.trimStart_endOf _).standsIn ih
  | dropColumns _ columns ih => exact (Line.dropColumns_endOf tab columns _).standsIn ih
  | headingMark _ hmark ih => exact (Line.drop_endOf (headingDepth?_eq_some hmark).2.2).standsIn ih
  | quoteMark _ hmark ih => exact (Line.drop_one_endOf hmark).standsIn ih
  | gap _ hc _ ih => exact (Line.drop_one_endOf hc).standsIn ih
  | listMark _ hmark ih =>
    exact (Line.drop_endOf ((marker?_eq_some hmark).2.1.trans (length_dropEndWhile_le _ _))).standsIn ih
  | box _ hbox ih => exact (Line.drop_endOf (taskBox?_le hbox)).standsIn ih
  | nothing _ ih => exact (Line.stop_endOf _).standsIn ih
  | headingText _ ih => exact ih.init ((prefix_headingText _).trans (prefix_dropEndWhile _ _))
  | trimEnd _ ih => exact ih.init (prefix_dropEndWhile _ _)

/-- The content behind a list marker. -/
private theorem content {m : Marker} (h : Formed tab text l) (hm : Marker.read? tab l = some m) :
    Formed tab text m.content := by
  unfold Marker.read? at hm
  dsimp only at hm
  split at hm
  · cases hm
  · obtain ⟨⟨symbol, number, size⟩, hmarker, rfl⟩ := Option.map_eq_some_iff.1 hm
    have hrest := h.trimStart.listMark hmarker
    dsimp only
    split
    · exact hrest.nothing
    · split
      · exact hrest.dropColumns _
      · exact hrest.dropColumns _

private theorem paragraphLines {ls : List Line} (h : ∀ x ∈ ls, Formed tab text x) :
    ∀ x ∈ Setting.paragraphLines ls, Formed tab text x := by
  induction ls with
  | nil => exact List.forall_mem_nil _
  | cons l ls ih =>
    obtain ⟨hl, hls⟩ := List.forall_mem_cons.1 h
    cases ls with
    | nil => exact List.forall_mem_singleton.2 hl.trimStart.trimEnd
    | cons m ls => exact List.forall_mem_cons.2 ⟨hl.trimStart, ih hls⟩

end Formed

namespace Setting

variable {s : Setting} {ls : List Line}

/-! ### Rows inside chunks -/

private theorem formed_quoted? {inner : Line} (h : Formed s.tab text l) (hq : s.quoted? l = some inner) :
    Formed s.tab text inner := by
  unfold quoted? at hq
  split at hq
  · cases hq
  · dsimp only at hq
    split at hq
    · rename_i c cs hbody
      cases hq
      have hmark : Formed s.tab text (l.trimStart.drop 1) := h.trimStart.quoteMark (by rw [hbody]; rfl)
      split
      · rename_i hgap
        have hdrop : l.trimStart.drop 2 = (l.trimStart.drop 1).drop 1 := by
          simp [Line.drop, Nat.add_assoc]
        rw [hdrop]
        exact hmark.gap (by rw [Line.drop, hbody]; rfl) hgap
      · exact hmark
    · rename_i hbody
      cases hq
      exact h.trimStart.quoteMark (by rw [hbody]; rfl)
    · cases hq

private theorem formed_quotedLines (h : ∀ x ∈ ls, Formed s.tab text x) :
    ∀ x ∈ s.quotedLines ls, Formed s.tab text x := by
  induction ls with
  | nil => exact List.forall_mem_nil _
  | cons l ls ih =>
    obtain ⟨hl, hls⟩ := List.forall_mem_cons.1 h
    unfold quotedLines
    split
    · rename_i inner hinner
      exact List.forall_mem_cons.2 ⟨formed_quoted? hl hinner, ih hls⟩
    · exact List.forall_mem_nil _

private theorem formed_itemLines (indent : Rat) (previous : Line) (fence : Option Fence)
    (h : ∀ x ∈ ls, Formed s.tab text x) :
    ∀ x ∈ s.itemLines indent previous fence ls, Formed s.tab text x := by
  induction ls generalizing previous fence with
  | nil => exact List.forall_mem_nil _
  | cons l ls ih =>
    obtain ⟨hl, hls⟩ := List.forall_mem_cons.1 h
    unfold itemLines
    dsimp only
    split_ifs
    · exact List.forall_mem_cons.2 ⟨hl.dropColumns indent, ih _ _ hls⟩
    · exact List.forall_mem_cons.2 ⟨hl.dropColumns indent, ih _ _ hls⟩
    · exact List.forall_mem_cons.2 ⟨hl.trimStart, ih _ _ hls⟩
    · exact List.forall_mem_nil _

private theorem formed_item {m : Marker} (hm : Formed s.tab text m.content) (h : ∀ x ∈ ls, Formed s.tab text x) :
    ∀ x ∈ (s.item m ls).1.lines, Formed s.tab text x := by
  have hmore (previous : Line) (fence : Option Fence) : ∀ x ∈ dropEndWhile Line.isBlank
      (s.itemLines m.contentIndent previous fence ls), Formed s.tab text x :=
    fun x hx => formed_itemLines _ _ _ h x ((prefix_dropEndWhile _ _).subset hx)
  unfold item
  cases hbox : taskBox? m.content.text with
  | none => exact List.forall_mem_cons.2 ⟨hm, hmore _ _⟩
  | some box => exact List.forall_mem_cons.2 ⟨hm.box hbox, hmore _ _⟩

private theorem formed_items {m : Marker} {ls : List Line} (hm : Formed s.tab text m.content)
    (h : ∀ x ∈ ls, Formed s.tab text x) : ∀ item ∈ (s.items m ls).1, ∀ x ∈ item.lines, Formed s.tab text x := by
  rcases s.items_cases m ls with heq | ⟨opening, rest, next, hdrop, hread, -, heq⟩
  · rw [heq]
    exact List.forall_mem_singleton.2 (formed_item hm h)
  · rw [heq]
    have hlater : ∀ x ∈ opening :: rest, Formed s.tab text x := fun x hx => h x (List.mem_of_mem_drop (hdrop ▸ hx))
    obtain ⟨hopening, hrest⟩ := List.forall_mem_cons.1 hlater
    exact List.forall_mem_cons.2 ⟨formed_item hm h, formed_items (hopening.content hread) hrest⟩
termination_by ls.length
decreasing_by
  have hlen := congrArg List.length hdrop
  simp only [List.length_drop, List.length_cons] at hlen
  omega

/-- The lines inside a chunk are formed of those that it takes. -/
private theorem formed_rows (limit : Value) (h : ∀ x ∈ l :: ls, Formed s.tab text x) :
    ∀ r ∈ (s.chunk limit l ls).1.rows, ∀ x ∈ r.2, Formed s.tab text x := by
  obtain ⟨hl, hls⟩ := List.forall_mem_cons.1 h
  rcases s.chunk_cases limit l with hc | ⟨fence, -, hc⟩ | ⟨depth, -, hc⟩ | hc | hc | ⟨m, hread, hc⟩ | hc <;> rw [hc]
  · exact List.forall_mem_nil _
  · rw [Chunk.rows_eq_nil (s.isContainer_fencedCode fence l ls)]
    exact List.forall_mem_nil _
  · exact List.forall_mem_nil _
  · exact List.forall_mem_nil _
  · exact List.forall_mem_singleton.2 (formed_quotedLines h)
  · exact List.forall_mem_map.2 (formed_items (hl.content hread) hls)
  · rw [Chunk.rows_eq_nil (s.isContainer_paragraph _)]
    exact List.forall_mem_nil _

/-! ### Contents -/

/-- The content of a paragraph, or of the heading that an underline makes of it. -/
private theorem content?_paragraph (notes : List Note) :
    (s.paragraph notes l ls).1.content? = some (paragraphLines (l :: ls.takeWhile s.goesOn)) := by
  unfold paragraph
  dsimp only
  split
  · split <;> rfl
  · rfl

private theorem content?_fencedCode (fence : Fence) (l : Line) (ls : List Line) :
    (s.fencedCode fence l ls).1.content? = none := by
  unfold fencedCode
  dsimp only
  split <;> rfl

/-- The lines of a content are formed of those that the chunk takes, and each starts behind the one before it. -/
theorem joined_content (limit : Value) (hl : l.isBlank = false) {lo hi : Nat} (hfit : Line.Fit text lo (l :: ls) hi)
    (h : ∀ x ∈ l :: ls, Formed s.tab text x) : ∀ lines ∈ (s.chunk limit l ls).1.content?,
      (∀ x ∈ lines, Formed s.tab text x) ∧ Joined text 0 lines text.length := by
  have hjoined {lines : List Line} (hne : lines ≠ []) (hformed : ∀ x ∈ lines, Formed s.tab text x)
      (hapart : lines.Pairwise fun a b => a.stop < b.offset) :
      (∀ x ∈ lines, Formed s.tab text x) ∧ Joined text 0 lines text.length :=
    ⟨hformed, hne, fun x hx => (hformed x hx).standsIn, fun _ _ => Nat.zero_le _,
      fun x hx => (hformed x hx).standsIn.2, hapart⟩
  obtain ⟨hformed, hothers⟩ := List.forall_mem_cons.1 h
  rcases s.chunk_cases limit l with hc | ⟨fence, -, hc⟩ | ⟨depth, hdepth, hc⟩ | hc | hc | ⟨m, -, hc⟩ | hc <;> rw [hc]
  · rintro lines ⟨⟩
  · rw [content?_fencedCode]
    rintro lines ⟨⟩
  · rintro lines ⟨⟩
    refine hjoined (List.cons_ne_nil _ _) (List.forall_mem_singleton.2 ?_) (List.pairwise_singleton _ _)
    exact (hformed.trimStart.headingMark hdepth).trimStart.headingText
  · rintro lines ⟨⟩
  · rintro lines ⟨⟩
  · rintro lines ⟨⟩
  · rw [content?_paragraph]
    rintro lines ⟨⟩
    have hmore : ∀ x ∈ l :: ls.takeWhile s.goesOn, x.isBlank = false :=
      List.forall_mem_cons.2 ⟨hl, fun x hx => s.not_blank_of_goesOn (List.mem_takeWhile_imp hx)⟩
    have htaken := joined_paragraphLines (hfit.sublist ((List.takeWhile_sublist s.goesOn).cons_cons l)) hmore
    refine hjoined htaken.ne_nil (Formed.paragraphLines ?_) htaken.apart
    exact List.forall_mem_cons.2 ⟨hformed, fun x hx => hothers x ((List.takeWhile_sublist _).subset hx)⟩

end Setting

/-! ### Documents -/

variable {o : ScanOptions} {depth : Nat} {inItem : Bool} {row : List Line}

private theorem suffix_of_frontMatter? {ls rest : List Line} {t : Tree Span} (h : frontMatter? ls = some (t, rest)) :
    rest <:+ ls := by
  unfold frontMatter? at h
  split at h
  · cases h
  · rename_i first ls
    split at h
    · obtain ⟨⟨inner, closing, rest'⟩, hsplit, heq⟩ := Option.map_eq_some_iff.1 h
      cases heq
      rw [splitFrontMatter?_eq_some hsplit]
      exact ((List.suffix_cons closing rest).trans (List.suffix_append _ _)).trans (List.suffix_cons _ _)
    · cases h

private theorem suffix_splitDocument (front : Bool) (text : List Char) :
    (splitDocument front text).2 <:+ linesOf text := by
  unfold splitDocument
  split
  · rename_i node rest hfront
    split at hfront
    · exact suffix_of_frontMatter? hfront
    · cases hfront
  · exact List.suffix_rfl

namespace Inside

private theorem fit (h : Inside o text depth inItem row) : ∃ lo hi, Line.Fit text lo row hi := by
  induction h with
  | document =>
    obtain ⟨mid, hfit, -⟩ := splitDocument_fit o.frontMatter text
    exact ⟨_, _, hfit⟩
  | chunk _ hseg hrow ih =>
    obtain ⟨lo, hi, hfit⟩ := ih
    obtain ⟨lo, hi, hwithin⟩ := (Setting.within_segments _ _ _ _ hfit).within _ hseg
    exact hwithin.fit_rows _ hrow

theorem formed (h : Inside o text depth inItem row) : ∀ l ∈ row, Formed o.tabSize text l := by
  induction h with
  | document => exact fun l hl => .line ((suffix_splitDocument _ _).subset hl)
  | chunk _ hseg hrow ih =>
    obtain ⟨l, rest, hsuffix, -, hchunk⟩ := Setting.exists_chunk_of_mem_segments _ hseg
    rw [hchunk] at hrow
    exact Setting.formed_rows o.nestingLimit (fun x hx => ih x (hsuffix.subset hx)) _ hrow

/-- The lines of a content inside a row. -/
private theorem content (h : Inside o text depth inItem row) {seg : Segment}
    (hseg : seg ∈ (settingAt o depth inItem).segments o.nestingLimit false row) {lines : List Line}
    (hlines : lines ∈ seg.chunk.content?) :
    (∀ l ∈ lines, Formed o.tabSize text l) ∧ Joined text 0 lines text.length := by
  obtain ⟨lo, hi, hfit⟩ := h.fit
  obtain ⟨l, rest, hsuffix, hl, hchunk⟩ := Setting.exists_chunk_of_mem_segments _ hseg
  rw [hchunk] at hlines
  exact Setting.joined_content o.nestingLimit hl (hfit.sublist hsuffix.sublist)
    (fun x hx => h.formed x (hsuffix.subset hx)) lines hlines

end Inside

/-- The children of a node are read from a content inside some row. -/
def ReadInside (o : ScanOptions) (text : List Char) (u : Tree Span) : Prop :=
  ∃ depth inItem row, Inside o text depth inItem row ∧
    ∃ seg ∈ (settingAt o depth inItem).segments o.nestingLimit false row, ∃ lines ∈ seg.chunk.content?,
      u.children = (readLines lines).trees

/-- What is below the node of a chunk is inline, an item, or in a tree that is read from a row inside the chunk. -/
private theorem mem_below_chunkTree {inner : Inner} {c : Chunk}
    (hregular : ∀ v ∈ (chunkTree inner c).1.preorder, Regular text v)
    {u : Tree Span} (hu : u ∈ Tree.preorderList (chunkTree inner c).1.children) :
    u.kind.isInline = true ∨ u.kind = .listItem ∨ ∃ r ∈ c.rows, ∃ t ∈ (inner r.1 r.2).trees, u ∈ t.preorder := by
  cases c with
  | quote span lines =>
    obtain ⟨t, ht, hut⟩ := Tree.mem_preorderList.1 hu
    exact .inr (.inr ⟨(false, lines), List.mem_singleton_self _, t, ht, hut⟩)
  | list marker items =>
    obtain ⟨t, ht, hut⟩ := Tree.mem_preorderList.1 hu
    simp only [chunkTree, Tree.children, List.map_map, List.mem_map] at ht
    obtain ⟨item, hitem, rfl⟩ := ht
    rw [Function.comp_apply, itemTree, Tree.preorder] at hut
    rcases List.mem_cons.1 hut with rfl | hbelow
    · exact .inr (.inl rfl)
    · obtain ⟨t, ht, hut⟩ := Tree.mem_preorderList.1 hbelow
      exact .inr (.inr ⟨(true, item.lines), List.mem_map_of_mem hitem, t, ht, hut⟩)
  | _ => exact .inl (isInline_below hregular rfl u hu)

/-- The headings and paragraphs of a row of lines inside some containers have contents. -/
private theorem readInside_readBlocks {depth : Nat} {inItem : Bool} {row : List Line}
    (h : Inside o text depth inItem row) :
    ∀ t ∈ (readBlocks o (o.maxNesting - depth) inItem row).trees, ∀ u ∈ t.preorder,
      u.kind = .heading ∨ u.kind = .paragraph → ReadInside o text u := by
  obtain ⟨lo, hi, hfit⟩ := h.fit
  have hregular := (flow_readBlocks o (o.maxNesting - depth) inItem row lo hi hfit).regular
  rw [readBlocks_at] at hregular ⊢
  simp only [trees_assemble, List.map_map, List.forall_mem_map, Function.comp_apply] at hregular ⊢
  intro seg hseg u hu hkind
  rw [Tree.preorder_eq] at hu
  rcases List.mem_cons.1 hu with rfl | hbelow
  · refine ⟨depth, inItem, row, h, seg, hseg, ?_⟩
    rw [kind_chunkTree] at hkind
    cases hchunk : seg.chunk with
    | heading span depth lines notes => exact ⟨lines, rfl, rfl⟩
    | paragraph span lines notes => exact ⟨lines, rfl, rfl⟩
    | _ => simp [hchunk, Chunk.kind] at hkind
  · rcases mem_below_chunkTree (hregular seg hseg) hbelow with hinline | hitem | ⟨r, hr, t, ht, hut⟩
    · rcases hkind with hkind | hkind <;> simp [hkind, Kind.isInline] at hinline
    · rcases hkind with hkind | hkind <;> simp [hkind] at hitem
    · -- There are rows inside a chunk only where containers may be opened.
      obtain ⟨l, rest, -, -, hchunk⟩ := Setting.exists_chunk_of_mem_segments _ hseg
      have hlt : depth < o.maxNesting :=
        lt_of_mem_rows (show (settingAt o depth inItem).chunk o.nestingLimit l rest = (_, _) from rfl) (hchunk ▸ hr)
      rw [innerAt_of_lt hlt] at ht
      exact readInside_readBlocks (h.chunk hseg hr) t ht u hut hkind
termination_by o.maxNesting - depth

/-- All headings and paragraphs of a document have contents. -/
private theorem readInside_readDocument (o : ScanOptions) (text : List Char) :
    ∀ u ∈ (readDocument o text).tree.preorder,
    u.kind = .heading ∨ u.kind = .paragraph → ReadInside o text u := by
  obtain ⟨-, -, hfront⟩ := splitDocument_fit o.frontMatter text
  intro u hu hkind
  rw [readDocument_eq, Tree.preorder, List.mem_cons, Tree.mem_preorderList] at hu
  rcases hu with rfl | ⟨t, ht, hut⟩
  · simp [Tree.kind, Tree.content, Content.kind] at hkind
  · rcases List.mem_append.1 ht with hmatter | hblock
    · obtain ⟨hmatterKind, hregular⟩ := hfront t hmatter
      have hnone : t.kind.holdsBlocks = false := by rw [hmatterKind]; rfl
      rw [Tree.preorder_eq] at hut
      rcases List.mem_cons.1 hut with rfl | hbelow
      · simp [hmatterKind] at hkind
      · have hinline := isInline_below hregular hnone u hbelow
        rcases hkind with hkind | hkind <;> simp [hkind, Kind.isInline] at hinline
    · exact readInside_readBlocks .document t hblock u hut hkind

/-- Offsets stay faithful to the source. Every line that is formed is what the source says from its offset to its end,
and this goes for the lines of all rows inside containers, for what list markers leave of them and for the lines of all
contents. The places of a content lead to the source in the same order, stay in it, and find there the characters of
the content, but for the line feeds that join its lines; and all headings and paragraphs of the document are read from
such contents. -/
theorem faithful_readDocument (o : ScanOptions) (text : List Char) :
    (∀ l, Formed o.tabSize text l → l.stop ≤ text.length ∧ (text.take l.stop).drop l.offset = l.text) ∧
    (∀ depth inItem row, Inside o text depth inItem row →
      (∀ l ∈ row, Formed o.tabSize text l ∧ ∀ m ∈ Marker.read? o.tabSize l, Formed o.tabSize text m.content) ∧
      ∀ seg ∈ (settingAt o depth inItem).segments o.nestingLimit false row, ∀ lines ∈ seg.chunk.content?,
        (∀ l ∈ lines, Formed o.tabSize text l) ∧
        (∀ i j, i < j → j ≤ (contentOf lines).length → sourceOf lines i < sourceOf lines j) ∧
        (∀ i ≤ (contentOf lines).length, sourceOf lines i ≤ text.length) ∧
        ∀ i < (contentOf lines).length, i ∉ joints lines → text[sourceOf lines i]? = (contentOf lines)[i]?) ∧
    ∀ u ∈ (readDocument o text).tree.preorder, u.kind = .heading ∨ u.kind = .paragraph → ReadInside o text u := by
  refine ⟨fun l hl => ⟨hl.standsIn.2, hl.standsIn.slice⟩, fun depth inItem row hrow => ⟨fun l hl => ?_, ?_⟩,
    readInside_readDocument o text⟩
  · exact ⟨hrow.formed l hl, fun m hm => (hrow.formed l hl).content hm⟩
  · intro seg hseg lines hlines
    obtain ⟨hformed, hjoined⟩ := hrow.content hseg hlines
    exact ⟨hformed, fun i j hij _ => sourceOf_lt hjoined.ne_nil hjoined.apart hij, fun i hi => hjoined.sourceOf_le hi,
      fun i hi hjoint => getElem?_sourceOf_of_notMem hjoined.stands hi hjoint⟩

/-- The content of an item with a task box in a quote, with a carriage return behind its first line and columns that
are left out before its second. -/
theorem faithful_readDocument_item :
    let text := "> - [x] a\r\n>   *b*\n".toList
    let lines : List Line := [⟨['a'], 8⟩, ⟨['*', 'b', '*'], 15⟩]
    Inside {} text 2 true lines ∧ (∀ l ∈ lines, (text.take l.stop).drop l.offset = l.text) ∧
      (∃ seg ∈ (settingAt {} 2 true).segments (ScanOptions.nestingLimit {}) false lines, lines ∈ seg.chunk.content?) ∧
      contentOf lines = "a\n*b*".toList ∧ joints lines = [1] ∧
      (∀ i j, i < j → j ≤ (contentOf lines).length → sourceOf lines i < sourceOf lines j) ∧
      text[sourceOf lines 3]? = (contentOf lines)[3]? := by
  intro text lines
  have hquote : (settingAt {} 0 false).segments (ScanOptions.nestingLimit {}) false (splitDocument true text).2 =
      [⟨false, .quote ⟨0, 18⟩ [⟨"- [x] a".toList, 2⟩, ⟨"  *b*".toList, 13⟩]⟩] := by decide +kernel
  have hitem : ((settingAt {} 1 false).segments (ScanOptions.nestingLimit {}) false
      [⟨"- [x] a".toList, 2⟩, ⟨"  *b*".toList, 13⟩]).map (·.chunk.rows) = [[(true, lines)]] := by decide +kernel
  have hcontent : ((settingAt {} 2 true).segments (ScanOptions.nestingLimit {}) false lines).map (·.chunk.content?) =
      [some lines] := by decide +kernel
  obtain ⟨list, hlist, hrows⟩ := List.map_eq_singleton_iff.1 hitem
  obtain ⟨seg, hseg, hlines⟩ := List.map_eq_singleton_iff.1 hcontent
  have houter : Inside {} text 1 false [⟨"- [x] a".toList, 2⟩, ⟨"  *b*".toList, 13⟩] :=
    .chunk .document (by rw [hquote]; exact .head _) (.head _)
  have hinside : Inside {} text 2 true lines :=
    .chunk houter (by rw [hlist]; exact .head _) (by rw [hrows]; exact .head _)
  have hmem : seg ∈ (settingAt {} 2 true).segments (ScanOptions.nestingLimit {}) false lines := by
    rw [hseg]
    exact .head _
  obtain ⟨hstands, hfaithful, -⟩ := faithful_readDocument {} text
  obtain ⟨hformed, hcontents⟩ := hfaithful 2 true lines hinside
  obtain ⟨-, hordered, -, hchars⟩ := hcontents seg hmem lines hlines
  exact ⟨hinside, fun l hl => (hstands l (hformed l hl).1).2, ⟨seg, hmem, hlines⟩, by decide, by decide, hordered,
    hchars 3 (by decide) (by decide)⟩

end MarkdownTree.Scan
