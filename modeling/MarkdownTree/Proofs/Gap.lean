import MarkdownTree.Proofs.Taken

/-!
# Gaps in a row of lines

A chunk that is no list ends with the last line that it takes (`exists_last_taken`), while a list takes the blank lines
behind it as well (`not_blank_of_drop_items`).  So a gap in front of a chunk is a blank line between it and the one
before, if that is no list, and none is seen behind a list (`gap_iff`).  A row of lines has gaps exactly if a blank line
stands between two neighbours of which the first is no list (`loose_readBlocks`).
-/

namespace MarkdownTree.Scan

open Text

/-! ### Neighbours -/

section

variable {α β : Type}

private theorem infix_cons_cons_iff {a b c d : α} {as : List α} :
    [a, b] <:+: c :: d :: as ↔ a = c ∧ b = d ∨ [a, b] <:+: d :: as := by
  rw [List.infix_cons_iff, List.cons_prefix_cons, List.cons_prefix_cons]
  simp

theorem exists_infix_map_iff {f : α → β} {as : List α} {P : β → β → Prop} :
    (∃ c d, [c, d] <:+: as.map f ∧ P c d) ↔ ∃ a b, [a, b] <:+: as ∧ P (f a) (f b) := by
  constructor
  · rintro ⟨c, d, hinfix, hP⟩
    obtain ⟨pair, hpair, hmap⟩ := List.infix_map_iff.1 hinfix
    match pair, hmap with
    | [a, b], hmap =>
      cases hmap
      exact ⟨a, b, hpair, hP⟩
  · rintro ⟨a, b, hinfix, hP⟩
    exact ⟨f a, f b, List.infix_map_iff.2 ⟨_, hinfix, rfl⟩, hP⟩

end

/-! ### Places of chunks -/

/-- A blank line among some lines stands behind one place and before another. -/
def BlankBetween (lines : List Line) (stop start : Int) : Prop :=
  ∃ l ∈ lines, l.isBlank = true ∧ stop < l.offset ∧ (l.stop : Int) < start

/-- The span of the node that is read from a chunk. -/
def Chunk.span : Chunk → Span
  | .code span .. | .heading span .. | .paragraph span .. | .rule span | .quote span _ => span
  | .list marker items => ⟨marker.start, (items.getLast?.map ItemChunk.stop).getD marker.stop⟩

private theorem note_chunkTree (inner : Inner) (c : Chunk) : (chunkTree inner c).1.note = c.span := by
  cases c <;> rfl

variable {source : List Char} {lo hi : Nat} {l : Line} {ls : List Line}

private theorem Chunk.Within.bounds {c : Chunk} (h : c.Within source lo hi) :
    lo ≤ c.span.start ∧ c.span.start ≤ c.span.stop ∧ c.span.stop ≤ hi := by
  have hnone : Inner.Flows source fun _ _ => ⟨[], [], false⟩ := fun _ _ _ _ hfit => .nil hfit.le
  have hflow := (flow_chunkTree hnone h).between
  rw [List.map_singleton, note_chunkTree] at hflow
  exact hflow

private theorem SegmentsWithin.bounds {segments : List Segment} (h : SegmentsWithin source lo segments hi) {c : Chunk}
    (hc : c ∈ segments.map Segment.chunk) : lo ≤ c.span.start ∧ c.span.start ≤ c.span.stop := by
  induction segments generalizing lo with
  | nil => cases hc
  | cons seg segments ih =>
    obtain ⟨mid, hfirst, hrest⟩ := h
    have hbounds := hfirst.bounds
    rcases hc with _ | ⟨_, hc⟩
    · exact ⟨hbounds.1, hbounds.2.1⟩
    · have := ih hrest hc
      omega

namespace Setting

variable (s : Setting) (limit : Value)

/-! ### The ends of chunks -/

private theorem not_blank_of_drop_itemLines (indent : Rat) (previous : Line) (fence : Option Fence) (ls : List Line) :
    ∀ x ∈ (ls.drop (s.itemLines indent previous fence ls).length).head?, x.isBlank = false := by
  induction ls generalizing previous fence with
  | nil => simp
  | cons l ls ih =>
    unfold itemLines
    dsimp only
    split_ifs with hblank
    · exact ih _ _
    · exact ih _ _
    · exact ih _ _
    · simpa using hblank

/-- A list takes the blank lines at its end. -/
theorem not_blank_of_drop_items (m : Marker) (ls : List Line) :
    ∀ x ∈ (ls.drop (s.items m ls).2).head?, x.isBlank = false := by
  rcases s.items_cases m ls with heq | ⟨l, rest, next, hdrop, -, -, heq⟩
  · rw [heq]
    exact s.not_blank_of_drop_itemLines _ _ _ ls
  · have hothers := not_blank_of_drop_items next rest
    rw [heq]
    dsimp only
    rwa [Nat.add_assoc, ← List.drop_drop, hdrop, Nat.add_comm 1, List.drop_succ_cons]
termination_by ls.length
decreasing_by
  have hlen := congrArg List.length hdrop
  simp only [List.length_drop, List.length_cons] at hlen
  omega

private theorem getLast?_cons_take {n : Nat} {x : Line} (h : (ls.drop n).head? = some x) :
    (l :: ls.take (n + 1)).getLast? = some x := by
  rw [List.take_add_one, ← List.head?_drop, h, Option.toList_some, ← List.cons_append, List.getLast?_concat]

theorem kind_paragraph (notes : List Note) (l : Line) (ls : List Line) :
    (s.paragraph notes l ls).1.kind = .heading ∨ (s.paragraph notes l ls).1.kind = .paragraph := by
  unfold paragraph
  dsimp only
  split
  · split
    · exact .inl rfl
    · exact .inr rfl
  · exact .inr rfl

theorem not_blank_of_drop_list (hkind : (s.chunk limit l ls).1.kind = .list) :
    ∀ x ∈ (ls.drop (s.chunk limit l ls).2).head?, x.isBlank = false := by
  rcases s.chunk_cases limit l with h | ⟨fence, -, h⟩ | ⟨depth, -, h⟩ | h | h | ⟨m, -, h⟩ | h <;> rw [h] at hkind ⊢
  · cases hkind
  · rw [kind_fencedCode] at hkind
    cases hkind
  · cases hkind
  · cases hkind
  · cases hkind
  · exact s.not_blank_of_drop_items m ls
  · rcases s.kind_paragraph (s.paragraphNotes limit l l.trimStart) l ls with hk | hk <;> rw [hk] at hkind <;> cases hkind

/-- The last of a line and those that its chunk takes after it says something, and with that the chunk ends. -/
def EndsWith (l : Line) (ls : List Line) (c : Chunk × Nat) : Prop :=
  ∃ last, (l :: ls.take c.2).getLast? = some last ∧ last.isBlank = false ∧ c.1.span.stop = last.contentStop

private theorem endsWith_indentedCode (hl : l.isBlank = false) : EndsWith l ls (s.indentedCode l ls) := by
  have hinit : s.indentedLines ls <+: ls := (prefix_dropEndWhile _ _).trans <| List.takeWhile_prefix _
  refine ⟨(s.indentedLines ls).getLast?.getD l, ?_, last_not_blank hl, rfl⟩
  rw [indentedCode, ← List.prefix_iff_eq_take.1 hinit, List.getLast?_cons]

private theorem endsWith_fencedCode {fence : Fence} (hfence : Fence.opening? l.trimStart.text = some fence)
    (hrest : ls.drop (s.fencedCode fence l ls).2 ≠ []) : EndsWith l ls (s.fencedCode fence l ls) := by
  obtain ⟨hsize, hmark⟩ := Fence.opening?_eq_some hfence
  have hnot := List.head?_dropWhile_not (fun x : Line => !(x.indent s.tab < 4 && fence.closedBy x.trimStart.text)) ls
  rw [← drop_length_takeWhile] at hnot
  unfold fencedCode at hrest ⊢
  dsimp only at hrest ⊢
  split at hrest
  · rename_i closing rest hdrop
    rw [hdrop] at hnot
    simp only [List.head?_cons, Bool.not_eq_false', Bool.and_eq_true] at hnot
    have hclosing := (Line.trimStart_endOf closing).not_blank (Fence.not_blank_of_closedBy hsize hmark hnot.2)
    exact ⟨closing, getLast?_cons_take (by rw [hdrop]; rfl), hclosing, rfl⟩
  · rename_i hdrop
    exact absurd hdrop hrest

private theorem endsWith_paragraph (notes : List Note) (hl : l.isBlank = false) :
    EndsWith l ls (s.paragraph notes l ls) := by
  have hmore : ∀ x ∈ l :: ls.takeWhile s.goesOn, x.isBlank = false := by
    refine List.forall_mem_cons.2 ⟨hl, fun x hx => ?_⟩
    have := List.mem_takeWhile_imp hx
    simp only [goesOn, Bool.and_eq_true, Bool.not_eq_true'] at this
    exact this.1.1
  have htake : ls.take (ls.takeWhile s.goesOn).length = ls.takeWhile s.goesOn :=
    (List.prefix_iff_eq_take.1 (List.takeWhile_prefix _)).symm
  have hlast := hmore _ (List.mem_of_getLast? List.getLast?_cons)
  obtain ⟨x, hx, hstop⟩ := paragraphLines_getLast? l (ls.takeWhile s.goesOn)
  rw [(Line.trimStart_endOf _).contentStop_eq (Line.trimStart_not_blank hlast)] at hstop
  have hparagraph : EndsWith l ls (.paragraph
      ⟨l.trimStart.offset, ((paragraphLines (l :: ls.takeWhile s.goesOn)).getLast?.getD l).stop⟩
      (paragraphLines (l :: ls.takeWhile s.goesOn)) notes, (ls.takeWhile s.goesOn).length) := by
    refine ⟨_, ?_, hlast, ?_⟩
    · rw [htake, List.getLast?_cons]
    · rw [Chunk.span, hx, Option.getD_some, hstop]
  unfold paragraph
  dsimp only
  split
  · rename_i next hnext
    split
    · rename_i depth hunder
      exact ⟨next, getLast?_cons_take hnext, (s.underline?_eq_some hunder).2.2, rfl⟩
    · exact hparagraph
  · exact hparagraph

private theorem endsWith_quote (hl : l.isBlank = false) : EndsWith l ls (s.quote l ls) := by
  obtain ⟨-, hblank⟩ := s.endOf_quotedLines (l :: ls)
  unfold quote EndsWith
  dsimp only [Chunk.span]
  cases hlen : (s.quotedLines (l :: ls)).length with
  | zero => exact ⟨l, rfl, hl, rfl⟩
  | succ n =>
    rw [hlen, List.take_succ_cons] at hblank
    rw [List.take_succ_cons, Nat.add_sub_cancel, List.getLast?_cons, Option.getD_some]
    exact ⟨_, rfl, hblank _ (List.mem_of_getLast? List.getLast?_cons), rfl⟩

/-- What a line opens ends with the last line that it takes, unless it is a list or nothing follows. -/
private theorem endsWith_chunk (hl : l.isBlank = false) (hkind : (s.chunk limit l ls).1.kind ≠ .list)
    (hrest : ls.drop (s.chunk limit l ls).2 ≠ []) : EndsWith l ls (s.chunk limit l ls) := by
  have hbody := (Line.trimStart_endOf l).contentStop_eq (Line.trimStart_not_blank hl)
  rcases s.chunk_cases limit l with h | ⟨fence, hfence, h⟩ | ⟨depth, -, h⟩ | h | h | ⟨m, -, h⟩ | h <;>
    rw [h] at hkind hrest ⊢
  · exact s.endsWith_indentedCode hl
  · exact s.endsWith_fencedCode hfence hrest
  · exact ⟨l, rfl, hl, hbody⟩
  · exact ⟨l, rfl, hl, hbody⟩
  · exact s.endsWith_quote hl
  · exact absurd rfl hkind
  · exact s.endsWith_paragraph _ hl

/-! ### The starts of chunks -/

private theorem start_fencedCode (fence : Fence) (l : Line) (ls : List Line) :
    (s.fencedCode fence l ls).1.span.start = l.trimStart.offset := by
  unfold fencedCode
  dsimp only
  split <;> rfl

private theorem start_paragraph (notes : List Note) (l : Line) (ls : List Line) :
    (s.paragraph notes l ls).1.span.start = l.trimStart.offset := by
  unfold paragraph
  dsimp only
  split
  · split <;> rfl
  · rfl

/-- A chunk starts in what its first line says. -/
private theorem start_chunk (hl : l.isBlank = false) :
    l.offset ≤ (s.chunk limit l ls).1.span.start ∧ (s.chunk limit l ls).1.span.start < l.contentStop := by
  have hbody := Line.trimStart_endOf l
  have hle := hbody.offset_le
  have hlt := Line.offset_lt_contentStop (Line.trimStart_not_blank hl)
  rw [hbody.contentStop_eq (Line.trimStart_not_blank hl)] at hlt
  rcases s.chunk_cases limit l with h | ⟨fence, -, h⟩ | ⟨depth, -, h⟩ | h | h | ⟨m, hread, h⟩ | h <;> rw [h]
  · have hcolumns := Line.dropColumns_offset_le s.tab 4 l
    exact ⟨(Line.dropColumns_endOf s.tab 4 l).offset_le, Nat.lt_of_le_of_lt hcolumns hlt⟩
  · rw [start_fencedCode]
    exact ⟨hle, hlt⟩
  · exact ⟨hle, hlt⟩
  · exact ⟨hle, hlt⟩
  · exact ⟨hle, hlt⟩
  · have hm := Marker.read?_within hread
    exact ⟨hm.le, hm.lt.trans_le hm.stop_le⟩
  · rw [start_paragraph]
    exact ⟨hle, hlt⟩

/-- Chunks start behind the lines in front of theirs. -/
private theorem stop_lt_start {pre : List Line} (h : Line.Fit source lo (pre ++ ls) hi) {gap : Bool} {c : Chunk}
    (hc : c ∈ (s.segments limit gap ls).map Segment.chunk) {x : Line} (hx : x ∈ pre) :
    x.stop < c.span.start ∧ c.span.start ≤ c.span.stop := by
  have hrest := h.sublist (List.sublist_append_right pre ls)
  have hapart := (List.pairwise_append.1 h.apart).2.2 x hx
  have hfit : Line.Fit source (x.stop + 1) ls (max hi (x.stop + 1)) :=
    hrest.between (Nat.le_max_right _ _) hapart fun y hy hb => (hrest.below y hy hb).trans (Nat.le_max_left _ _)
  have := (s.within_segments limit gap ls hfit).bounds hc
  omega

/-! ### Gaps -/

/-- Lines in front of a chunk's first are not behind it. -/
private theorem blankBetween_append {pre : List Line} (h : Line.Fit source lo (pre ++ ls) hi) {gap : Bool} {c : Chunk}
    (hc : c ∈ (s.segments limit gap ls).map Segment.chunk) {start : Int} :
    BlankBetween (pre ++ ls) c.span.stop start ↔ BlankBetween ls c.span.stop start := by
  constructor
  · rintro ⟨x, hx, hb, hstop, hstart⟩
    rcases List.mem_append.1 hx with hx | hx
    · have := s.stop_lt_start limit h hc hx
      have : x.offset ≤ x.stop := Nat.le_add_right _ _
      omega
    · exact ⟨x, hx, hb, hstop, hstart⟩
  · rintro ⟨x, hx, hb, hbetween⟩
    exact ⟨x, List.mem_append_right _ hx, hb, hbetween⟩

private theorem gap_of_segments {seg : Segment} {segs : List Segment} (h : s.segments limit true ls = seg :: segs) :
    seg.gap = true := by
  induction ls with
  | nil =>
    rw [segments] at h
    cases h
  | cons l ls ih =>
    rw [segments] at h
    split at h
    · exact ih h
    · cases h
      rfl

/-- A chunk has a gap in front of it exactly if the first line behind the chunk before is blank. -/
theorem gap_segments {x : Line} {rest : List Line} {seg : Segment} {segs : List Segment}
    (h : s.segments limit false (x :: rest) = seg :: segs) : seg.gap = true ↔ x.isBlank = true := by
  rw [segments] at h
  split at h
  · rename_i hx
    exact iff_of_true (s.gap_of_segments limit h) hx
  · rename_i hx
    cases h
    exact iff_of_false Bool.false_ne_true hx

/-- Behind lines of which the last says something, a blank line stands in front of the next chunk exactly if the next
line is blank. -/
private theorem blankBetween_iff {before rest : List Line} {last x : Line}
    (h : Line.Fit source lo (before ++ x :: rest) hi)
    (hlast : before.getLast? = some last) (hb : last.isBlank = false) {seg : Segment} {segs : List Segment}
    (hseg : s.segments limit false (x :: rest) = seg :: segs) :
    BlankBetween (before ++ x :: rest) last.contentStop seg.chunk.span.start ↔ x.isBlank = true := by
  rw [segments] at hseg
  split at hseg
  · rename_i hx
    refine iff_of_true ⟨x, by simp, hx, ?_, ?_⟩ hx
    · have := (List.pairwise_append.1 h.apart).2.2 last (List.mem_of_getLast? hlast) x (.head _)
      have := last.contentStop_le
      omega
    · have hmem : seg.chunk ∈ (s.segments limit true rest).map Segment.chunk := by
        rw [hseg]
        exact .head _
      have hfit : Line.Fit source lo ([x] ++ rest) hi := h.sublist (List.sublist_append_right _ _)
      have := s.stop_lt_start limit hfit hmem (.head _)
      omega
  · rename_i hx
    cases hseg
    refine iff_of_false ?_ hx
    rintro ⟨y, hy, hyb, hstop, hstart⟩
    have hoffset : y.offset ≤ y.contentStop := Nat.le_add_right _ _
    have hcontent := y.contentStop_le
    rcases List.mem_append.1 hy with hy | hy
    · -- The lines before end no later than the last of them.
      have := (h.sublist (List.sublist_append_left _ _)).contentStop_le_last hy hlast hb
      omega
    · rcases List.mem_cons.1 hy with rfl | hy
      · exact hx hyb
      · -- The lines behind the first of the chunk are behind its start.
        have hchunk : (s.chunk limit x rest).1.span.start < x.contentStop :=
          (s.start_chunk limit (Bool.not_eq_true _ ▸ hx)).2
        have := x.contentStop_le
        have := List.rel_of_pairwise_cons (List.pairwise_append.1 h.apart).2.1 hy
        have hstart : (y.stop : Int) < (s.chunk limit x rest).1.span.start := hstart
        omega

/-- A chunk has a gap in front of it exactly if the one before is no list and a blank line stands between them. -/
theorem gap_iff (hl : l.isBlank = false) (h : Line.Fit source lo (l :: ls) hi) {seg : Segment} {segs : List Segment}
    (hrest : s.segments limit false (ls.drop (s.chunk limit l ls).2) = seg :: segs) :
    seg.gap = true ↔ (s.chunk limit l ls).1.kind ≠ .list ∧
      BlankBetween (l :: ls) (s.chunk limit l ls).1.span.stop seg.chunk.span.start := by
  have hsplit : l :: ls = (l :: ls.take (s.chunk limit l ls).2) ++ ls.drop (s.chunk limit l ls).2 := by
    rw [List.cons_append, List.take_append_drop]
  have hends (hkind : (s.chunk limit l ls).1.kind ≠ .list) := s.endsWith_chunk limit hl hkind
  have hlist (hkind : (s.chunk limit l ls).1.kind = .list) := s.not_blank_of_drop_list limit hkind
  rw [hsplit] at h ⊢
  revert h hrest hends hlist
  generalize ls.drop (s.chunk limit l ls).2 = rest
  intro h hrest hends hlist
  cases rest with
  | nil =>
    rw [segments] at hrest
    cases hrest
  | cons x rest =>
    rw [s.gap_segments limit hrest]
    by_cases hkind : (s.chunk limit l ls).1.kind = .list
    · have hx := hlist hkind x rfl
      exact iff_of_false (Bool.eq_false_iff.1 hx) fun hgap => hgap.1 hkind
    · obtain ⟨last, hlast, hb, hstop⟩ := hends hkind (List.cons_ne_nil _ _)
      rw [hstop, s.blankBetween_iff limit h hlast hb hrest]
      exact (and_iff_right hkind).symm

/-! ### Rows -/

/-- A row has gaps exactly if a blank line stands between two neighbours of which the first is no list. -/
private theorem any_gap_iff (gap : Bool) (h : Line.Fit source lo ls hi) :
    ((s.segments limit gap ls).drop 1).any Segment.gap = true ↔
      ∃ c d, [c, d] <:+: (s.segments limit gap ls).map Segment.chunk ∧ c.kind ≠ .list ∧
        BlankBetween ls c.span.stop d.span.start := by
  fun_induction s.segments limit gap ls with
  | case1 gap => simp
  | case2 gap l ls hl ih =>
    rw [ih h.tail]
    refine exists_congr fun c => exists_congr fun d => and_congr_right fun hcd => and_congr_right fun _ => ?_
    have h : Line.Fit source lo ([l] ++ ls) hi := h
    exact (s.blankBetween_append limit h (hcd.subset (.head _))).symm
  | case3 gap l ls hl chunk taken hchunk ih =>
    have hl := Bool.not_eq_true _ ▸ hl
    have hsplit : l :: ls = (l :: ls.take taken) ++ ls.drop taken := by
      rw [List.cons_append, List.take_append_drop]
    have hgap {seg : Segment} {segs : List Segment}
        (hrest : s.segments limit false (ls.drop (s.chunk limit l ls).2) = seg :: segs) := s.gap_iff limit hl h hrest
    rw [hchunk] at hgap
    rw [hsplit] at h
    have ih := ih (h.sublist (List.sublist_append_right _ _))
    have hpre {c : Chunk} {start : Int} (hc : c ∈ (s.segments limit false (ls.drop taken)).map Segment.chunk) :
        BlankBetween (l :: ls) c.span.stop start ↔ BlankBetween (ls.drop taken) c.span.stop start := by
      rw [hsplit]
      exact s.blankBetween_append limit h hc
    rw [List.drop_succ_cons, List.drop_zero, List.map_cons]
    revert hgap ih hpre
    cases hsegments : s.segments limit false (ls.drop taken) with
    | nil =>
      intro _ _ _
      simp [List.infix_cons_iff]
    | cons seg segs =>
      intro hgap ih hpre
      rw [List.any_cons, Bool.or_eq_true, hgap rfl]
      rw [List.drop_succ_cons, List.drop_zero, List.map_cons] at ih
      rw [List.map_cons] at hpre ⊢
      constructor
      · rintro (⟨hkind, hb⟩ | hlater)
        · exact ⟨chunk, seg.chunk, infix_cons_cons_iff.2 (.inl ⟨rfl, rfl⟩), hkind, hb⟩
        · obtain ⟨c, d, hcd, hkind, hb⟩ := ih.1 hlater
          exact ⟨c, d, infix_cons_cons_iff.2 (.inr hcd), hkind, (hpre (hcd.subset (.head _))).2 hb⟩
      · rintro ⟨c, d, hcd, hkind, hb⟩
        rcases infix_cons_cons_iff.1 hcd with ⟨rfl, rfl⟩ | hcd
        · exact .inl ⟨hkind, hb⟩
        · exact .inr (ih.2 ⟨c, d, hcd, hkind, (hpre (hcd.subset (.head _))).1 hb⟩)

end Setting

/-- A row of lines reads as blocks with gaps exactly if a blank line stands between two neighbours of which the first is
no list. -/
theorem loose_readBlocks (o : ScanOptions) (room : Nat) (inItem : Bool) (h : Line.Fit source lo ls hi) :
    (readBlocks o room inItem ls).loose = true ↔
      ∃ c d, [c, d] <:+: (readBlocks o room inItem ls).trees ∧ c.kind ≠ .list ∧
        BlankBetween ls c.note.stop d.note.start := by
  obtain ⟨inner, s, hread⟩ := readBlocks_eq_assemble o room inItem
  rw [hread, trees_assemble,
    exists_infix_map_iff (P := fun c d : Tree Span => c.kind ≠ .list ∧ BlankBetween ls c.note.stop d.note.start)]
  simp only [kind_chunkTree, note_chunkTree]
  exact s.any_gap_iff o.nestingLimit false h

end MarkdownTree.Scan
