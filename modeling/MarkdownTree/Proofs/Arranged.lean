import MarkdownTree.Proofs.Nesting
import MarkdownTree.Proofs.Sound

/-!
# Scanned trees are arranged

Chunks that are cut from a row of lines meet in few ways (`Setting.isChain_segments`): what stands directly behind a
paragraph interrupts it, what stands directly behind a quote has no quote mark, and a list takes the blank lines behind
it.  So the blocks of an item without blank lines cannot have been read as one, and all nodes of scanned trees are
arranged (`arranged_readDocument`).
-/

namespace MarkdownTree.Scan

open Text Print

/-! ### Chunks side by side -/

/-- A chunk of the lines of a paragraph, of several lines if they are underlined. -/
def Chunk.Flowing : Chunk → Prop
  | .paragraph .. => True
  | .heading _ _ lines _ => '\n' ∈ contentOf lines
  | _ => False

/-- Headings of several lines are underlined, what a fence says is words, and checked items say something. -/
def Chunk.Proper : Chunk → Prop
  | .code _ _ lang details _ => IsWords lang details ∧ '\n' ∉ infoText lang details
  | .heading _ depth lines _ => '\n' ∈ contentOf lines → depth ≤ 2
  | .list _ items => ∀ item ∈ items, item.checked ≠ none → ∃ l ∈ item.lines, l.isBlank = false
  | _ => True

/-- What stands before a gap is no list, and what stands directly behind a paragraph or a quote does not go on with
it. -/
structure Segment.Meets (a b : Segment) : Prop where
  list : b.gap = true → a.chunk.kind ≠ .list
  paragraph : b.gap = false → a.chunk.kind = .paragraph → ¬b.chunk.Flowing
  quote : b.gap = false → a.chunk.kind = .blockQuote → b.chunk.kind ≠ .blockQuote

private theorem not_blank_of_taskBox? {l : Line} {checked : Bool} {size : Nat}
    (h : taskBox? l.text = some (checked, size)) : (l.drop size).isBlank = false := by
  unfold taskBox? at h
  split at h
  · rename_i c rest htext
    dsimp only at h
    split at h
    · rename_i d ds hdrop
      split at h
      · rename_i hd
        cases h
        have hrest : (l.drop ((rest.takeWhile isGap).length + 3)).text = d :: ds := by
          rw [Line.drop, htext, ← hdrop]
          rfl
        exact Line.isBlank_of_head hrest (by simpa using hd.2.2)
      · cases h
    · cases h
  · cases h

namespace Setting

variable (s : Setting) (limit : Value) {l : Line} {ls : List Line}

/-! What stands behind a paragraph. -/

private theorem interrupts_of_drop_paragraph (hkind : (s.chunk limit l ls).1.kind = .paragraph) :
    ∀ x ∈ (ls.drop (s.chunk limit l ls).2).head?, x.isBlank = true ∨ s.interrupts x = true := by
  rcases s.chunk_cases limit l with h | ⟨fence, -, h⟩ | ⟨depth, -, h⟩ | h | h | ⟨m, -, h⟩ | h <;> rw [h] at hkind ⊢
  · cases hkind
  · rw [kind_fencedCode] at hkind
    cases hkind
  · cases hkind
  · cases hkind
  · cases hkind
  · cases hkind
  · have hnot := List.head?_dropWhile_not s.goesOn ls
    rw [← drop_length_takeWhile] at hnot
    unfold paragraph at hkind ⊢
    dsimp only at hkind ⊢
    split at hkind
    · rename_i next hnext
      split at hkind
      · cases hkind
      · rename_i hunder
        rw [hnext] at hnot ⊢
        simpa [goesOn, hunder, or_iff_not_imp_left] using hnot
    · rename_i hnext
      simp [hnext]

private theorem not_flowing_markedHeading {body : Line} (h : '\n' ∉ body.text) (depth : Nat) :
    ¬(markedHeading depth body).Flowing := by
  have hpart := (prefix_headingText (body.drop depth).trimStart.text).trans (prefix_dropEndWhile _ _)
  have hnewline := (Line.trimStart_endOf (body.drop depth)).newline_notMem fun hmem => h (List.mem_of_mem_drop hmem)
  exact fun hmem => hnewline (hpart.subset hmem)

private theorem not_flowing_of_interrupts (hl : '\n' ∉ l.text) (h : s.interrupts l = true) (ls : List Line) :
    ¬(s.chunk limit l ls).1.Flowing := by
  have hbody : '\n' ∉ l.trimStart.text := (Line.trimStart_endOf l).newline_notMem hl
  have hfence (fence : Fence) : ¬(s.fencedCode fence l ls).1.Flowing := by
    obtain ⟨span, value, notes, hcode⟩ := s.words_fencedCode fence l ls
    rw [hcode]
    exact not_false
  unfold interrupts at h
  unfold chunk
  dsimp only at h ⊢
  split at h
  · cases h
  rename_i hindent
  rw [if_neg hindent]
  split
  · exact hfence _
  rename_i hopening
  split
  · exact not_flowing_markedHeading hbody _
  rename_i hdepth
  split
  · exact not_false
  rename_i hrule
  rw [hopening, hdepth, Bool.eq_false_iff.2 hrule, if_neg (by decide), if_neg (by decide)] at h
  split at h
  · cases h
  rename_i hcontainers
  rw [Bool.not_eq_true', Bool.not_eq_false] at hcontainers
  rw [hcontainers, Bool.true_and, if_pos rfl]
  split
  · exact not_false
  rename_i hquote
  rw [if_neg hquote] at h
  cases hread : Marker.read? s.tab l with
  | some m => exact not_false
  | none =>
    rw [hread] at h
    cases h

/-! What stands behind a quote. -/

private theorem not_quoted_of_drop_quotedLines (ls : List Line) :
    ∀ x ∈ (ls.drop (s.quotedLines ls).length).head?, s.quoted? x = none := by
  induction ls with
  | nil => simp
  | cons l ls ih =>
    unfold quotedLines
    cases hquoted : s.quoted? l with
    | none => simpa using hquoted
    | some inner => exact ih

private theorem quoted?_of_kind (hl : l.isBlank = false) (hkind : (s.chunk limit l ls).1.kind = .blockQuote) :
    (s.quoted? l).isSome = true := by
  unfold chunk at hkind
  dsimp only at hkind
  split at hkind
  · cases hkind
  rename_i hindent
  split at hkind
  · rw [kind_fencedCode] at hkind
    cases hkind
  split at hkind
  · cases hkind
  split at hkind
  · cases hkind
  split at hkind
  · rename_i hquote
    rw [Bool.and_eq_true, beq_iff_eq] at hquote
    obtain ⟨cs, hcs⟩ := List.head?_eq_some_iff.1 hquote.2
    rw [quoted?, hl, Bool.false_or, if_neg (by simpa using hindent)]
    dsimp only
    rw [hcs]
    cases cs <;> rfl
  · split at hkind
    · cases hkind
    · rcases s.kind_paragraph (s.paragraphNotes limit l l.trimStart) l ls with h | h <;> rw [h] at hkind <;> cases hkind

private theorem not_quoted_of_drop_quote (hl : l.isBlank = false) (hkind : (s.chunk limit l ls).1.kind = .blockQuote) :
    ∀ x ∈ (ls.drop (s.chunk limit l ls).2).head?, s.quoted? x = none := by
  have hsome := s.quoted?_of_kind limit hl hkind
  rcases s.chunk_cases limit l with h | ⟨fence, -, h⟩ | ⟨depth, -, h⟩ | h | h | ⟨m, -, h⟩ | h <;> rw [h] at hkind ⊢
  · cases hkind
  · rw [kind_fencedCode] at hkind
    cases hkind
  · cases hkind
  · cases hkind
  · obtain ⟨inner, hinner⟩ := Option.isSome_iff_exists.1 hsome
    have hlines : s.quotedLines (l :: ls) = inner :: s.quotedLines ls := by rw [quotedLines, hinner]
    rw [quote, hlines]
    exact s.not_quoted_of_drop_quotedLines ls
  · cases hkind
  · rcases s.kind_paragraph (s.paragraphNotes limit l l.trimStart) l ls with hk | hk <;>
      rw [hk] at hkind <;> cases hkind

/-- Without a gap, the first segment is what the first line opens. -/
private theorem chunk_of_segments {x : Line} {rest : List Line} {seg : Segment} {segs : List Segment}
    (h : s.segments limit false (x :: rest) = seg :: segs) (hgap : seg.gap = false) :
    x.isBlank = false ∧ seg.chunk = (s.chunk limit x rest).1 := by
  have hx := mt (s.gap_segments limit h).2 (Bool.eq_false_iff.1 hgap)
  rw [segments, if_neg hx] at h
  cases h
  exact ⟨Bool.eq_false_iff.2 hx, rfl⟩

/-- Chunks that are cut from lines meet the ones behind them. -/
theorem isChain_segments (gap : Bool) (hls : ∀ l ∈ ls, '\n' ∉ l.text) :
    (s.segments limit gap ls).IsChain Segment.Meets := by
  fun_induction s.segments limit gap ls with
  | case1 gap => exact .nil
  | case2 gap l ls hl ih => exact ih fun x hx => hls x (.tail _ hx)
  | case3 gap l ls hl chunk taken hchunk ih =>
    have hl := Bool.not_eq_true _ ▸ hl
    have hrest : ∀ x ∈ ls.drop taken, '\n' ∉ x.text := fun x hx => hls x (.tail _ (List.mem_of_mem_drop hx))
    refine List.isChain_cons.2 ⟨fun seg hseg => ?_, ih hrest⟩
    have hlist (hkind : (s.chunk limit l ls).1.kind = .list) := s.not_blank_of_drop_list limit hkind
    have hparagraph (hkind : (s.chunk limit l ls).1.kind = .paragraph) := s.interrupts_of_drop_paragraph limit hkind
    have hquote (hkind : (s.chunk limit l ls).1.kind = .blockQuote) := s.not_quoted_of_drop_quote limit hl hkind
    rw [hchunk] at hlist hparagraph hquote
    obtain ⟨segs, hsegs⟩ := List.head?_eq_some_iff.1 hseg
    cases hdrop : ls.drop taken with
    | nil =>
      rw [hdrop, segments] at hsegs
      cases hsegs
    | cons x rest =>
      rw [hdrop] at hsegs hlist hparagraph hquote hrest
      have hopens (hgap : seg.gap = false) := s.chunk_of_segments limit hsegs hgap
      constructor
      · intro hgap hkind
        have hx := hlist hkind x rfl
        rw [(s.gap_segments limit hsegs).1 hgap] at hx
        cases hx
      · intro hgap hkind
        obtain ⟨hx, heq⟩ := hopens hgap
        rw [heq]
        exact s.not_flowing_of_interrupts limit (hrest x (.head _))
          ((hparagraph hkind x rfl).resolve_left (Bool.eq_false_iff.1 hx)) rest
      · intro hgap hkind hnext
        obtain ⟨hx, heq⟩ := hopens hgap
        rw [heq] at hnext
        have hsome := s.quoted?_of_kind limit hx hnext
        rw [hquote hkind x rfl] at hsome
        cases hsome

/-! ### What single chunks keep -/

private theorem checked_item (m : Marker) (ls : List Line) (h : (s.item m ls).1.checked ≠ none) :
    ∃ x ∈ (s.item m ls).1.lines, x.isBlank = false := by
  unfold item at h ⊢
  cases hbox : taskBox? m.content.text with
  | none =>
    rw [hbox] at h
    exact absurd rfl h
  | some box => exact ⟨_, .head _, not_blank_of_taskBox? hbox⟩

private theorem checked_items (m : Marker) (ls : List Line) :
    ∀ item ∈ (s.items m ls).1, item.checked ≠ none → ∃ x ∈ item.lines, x.isBlank = false := by
  have hfirst := s.checked_item m ls
  rcases s.items_cases m ls with heq | ⟨opening, rest, next, hdrop, hread, -, heq⟩
  · rw [heq]
    simpa using hfirst
  · rw [heq]
    exact List.forall_mem_cons.2 ⟨hfirst, checked_items next rest⟩
termination_by ls.length
decreasing_by
  have hlen := congrArg List.length hdrop
  simp only [List.length_drop, List.length_cons] at hlen
  omega

private theorem proper_paragraph (notes : List Note) (l : Line) (ls : List Line) :
    (s.paragraph notes l ls).1.Proper := by
  unfold paragraph
  dsimp only
  split
  · split
    · rename_i hunder
      exact fun _ => (s.underline?_eq_some hunder).2.1
    · trivial
  · trivial

private theorem proper_chunk (hl : '\n' ∉ l.text) : (s.chunk limit l ls).1.Proper := by
  rcases s.chunk_cases limit l with h | ⟨fence, -, h⟩ | ⟨depth, -, h⟩ | h | h | ⟨m, -, h⟩ | h
  · rw [h]
    exact ⟨.nothing, List.not_mem_nil⟩
  · obtain ⟨span, value, notes, hwords⟩ := s.words_fencedCode fence l ls
    have hchunk := (congrArg Prod.fst (congrFun h ls)).trans hwords
    rw [hchunk]
    exact IsInfo.isWords ⟨s, limit, l, ls, span, value, notes, hl, hchunk⟩
  · rw [h]
    exact fun hmem => absurd hmem (not_flowing_markedHeading ((Line.trimStart_endOf l).newline_notMem hl) depth)
  · rw [h]
    trivial
  · rw [h]
    trivial
  · rw [h]
    exact s.checked_items m ls
  · rw [h]
    exact s.proper_paragraph _ l ls

private theorem proper_segments (gap : Bool) (hls : ∀ l ∈ ls, '\n' ∉ l.text) :
    ∀ seg ∈ s.segments limit gap ls, seg.chunk.Proper ∧ ∀ r ∈ seg.chunk.rows, ∀ l ∈ r.2, '\n' ∉ l.text := by
  intro seg hseg
  have hclear := s.clear_segments limit gap ls hls seg hseg
  obtain ⟨l, rest, hsuffix, -, hchunk⟩ := s.exists_chunk_of_mem_segments hseg
  refine ⟨hchunk ▸ s.proper_chunk limit (hls l (hsuffix.subset (.head _))), fun r hr => ?_⟩
  cases hc : seg.chunk with
  | quote span lines =>
    rw [hc] at hclear hr
    cases List.mem_singleton.1 hr
    exact hclear
  | list marker items =>
    rw [hc] at hclear hr
    obtain ⟨item, hitem, rfl⟩ := List.mem_map.1 hr
    exact hclear item hitem
  | _ =>
    rw [hc] at hr
    cases hr

end Setting

/-! ### Nodes -/

section

variable {inner : Inner} {c : Chunk}

private theorem flowing_of_breaks {lines : List Line}
    (h : ((readLines lines).trees.map Tree.erase).any Tree.breaksLine = true) : '\n' ∈ contentOf lines := by
  by_contra hnewline
  rw [erase_trees_readLines, List.any_map, List.any_eq_true] at h
  obtain ⟨t, ht, hbreaks⟩ := h
  rw [Function.comp_apply, Tree.erase, Tree.breaksLine_map, breaksLine_readInline hnewline t ht] at hbreaks
  cases hbreaks

/-- Chunks that meet without a gap are read as blocks that cannot have been one. -/
private theorem Segment.Meets.parted {a b : Segment} (h : a.Meets b) (hgap : b.gap = false) :
    Tree.Parted (chunkTree inner a.chunk).1.erase (chunkTree inner b.chunk).1.erase := by
  have hkind (c : Chunk) : (chunkTree inner c).1.erase.kind = c.kind := by
    rw [Tree.erase, Tree.kind_map, kind_chunkTree]
  constructor
  · rintro ⟨ha, hb⟩
    refine h.paragraph hgap ((hkind _).symm.trans ha) ?_
    rw [hkind] at hb
    cases hchunk : b.chunk with
    | paragraph => trivial
    | heading span depth lines notes =>
      rw [hchunk] at hb
      obtain ⟨-, hbreaks⟩ := hb.resolve_left (by simp [Chunk.kind])
      refine flowing_of_breaks ?_
      rwa [chunkTree, Tree.erase_node] at hbreaks
    | _ =>
      rw [hchunk] at hb
      simp [Chunk.kind] at hb
  · rintro ⟨ha, hb⟩
    exact h.quote hgap ((hkind _).symm.trans ha) ((hkind _).symm.trans hb)

private theorem hasLeader_cons_cons (t u : Tree Unit) (ts : List (Tree Unit)) :
    hasLeader (t :: u :: ts) = (t.kind != .list || hasLeader (u :: ts)) :=
  rfl

/-- Blocks with a gap among them have one in front of the last that is no list, and others cannot have been one. -/
private theorem apart_assemble {segments : List Segment} (h : segments.IsChain Segment.Meets) :
    if (assemble inner segments).loose then hasLeader ((assemble inner segments).trees.map Tree.erase) = true
    else ((assemble inner segments).trees.map Tree.erase).IsChain Tree.Parted := by
  rw [trees_assemble, List.map_map, List.map_map]
  show if (segments.drop 1).any Segment.gap then _ else _
  induction h with
  | nil => exact .nil
  | singleton a => exact .singleton _
  | @cons_cons a b segments hab hrest ih =>
    rw [List.drop_succ_cons, List.drop_zero] at ih ⊢
    simp only [List.map_cons, Function.comp_apply] at ih ⊢
    rw [List.any_cons, hasLeader_cons_cons]
    cases hgap : b.gap with
    | true =>
      rw [Bool.true_or, if_pos rfl, Tree.erase, Tree.kind_map, kind_chunkTree, Bool.or_eq_true, bne_iff_ne]
      exact .inl (hab.list hgap)
    | false =>
      rw [Bool.false_or]
      split at ih
      · rename_i hlater
        rw [if_pos hlater, ih, Bool.or_true]
      · rename_i hlater
        rw [if_neg hlater]
        exact .cons_cons (hab.parted hgap) ih

/-- All nodes of the blocks are as the scanner keeps them, and so are they side by side. -/
structure Blocks.Scannable (b : Blocks) : Prop where
  nodes : ∀ t ∈ b.trees, ∀ u ∈ t.erase.preorder, u.Scannable
  apart : if b.loose then hasLeader (b.trees.map Tree.erase) = true else (b.trees.map Tree.erase).IsChain Tree.Parted

private theorem scannable_of_kind {t : Tree Unit} (h : t.kind ∉ [.heading, .codeBlock, .list, .listItem]) :
    t.Scannable := by
  obtain ⟨note, content, children⟩ := t
  cases content with
  | heading | codeBlock | list | listItem => simp [Tree.kind, Tree.content, Content.kind] at h
  | _ => trivial

private theorem scannable_readLines (lines : List Line) :
    ∀ t ∈ (readLines lines).trees.map Tree.erase, ∀ u ∈ t.preorder, u.Scannable := by
  rw [erase_trees_readLines, ← Tree.forall_mem_preorderList]
  intro u hu
  have hinline := (isPhrase_readInline _).inline_preorderList u hu
  refine scannable_of_kind fun hmem => ?_
  revert hinline hmem
  cases u.kind <;> simp [Kind.isInline]

private theorem scannable_itemTree {item : ItemChunk} (hblocks : (inner true item.lines).Scannable)
    (hchecked : item.checked ≠ none → (inner true item.lines).trees ≠ []) :
    ∀ u ∈ (itemTree inner item).1.erase.preorder, u.Scannable := by
  rw [itemTree, Tree.erase_node]
  refine Tree.forall_mem_preorder.2 ⟨⟨fun hne => ?_, hblocks.apart⟩, List.forall_mem_map.2 hblocks.nodes⟩
  simpa [Tree.children] using hchecked hne

private theorem any_isSpread_items (items : List ItemChunk) :
    (items.map fun item => (itemTree inner item).1.erase).any isSpread =
      items.any fun item => (itemTree inner item).2.2 := by
  rw [List.any_map]
  rfl

private theorem length_of_itemsApart {items : List ItemChunk} (h : itemsApart items = true) : 2 ≤ items.length := by
  match items with
  | [] | [_] => cases h
  | _ :: _ :: items => simp

/-- The node of a chunk is as the scanner keeps it, and so are the nodes below. -/
private theorem scannable_chunkTree (h : c.Proper) (hrows : ∀ r ∈ c.rows,
      (inner r.1 r.2).Scannable ∧ ((∃ l ∈ r.2, l.isBlank = false) → (inner r.1 r.2).trees ≠ [])) :
    ∀ u ∈ (chunkTree inner c).1.erase.preorder, u.Scannable := by
  cases c with
  | code span value lang details notes =>
    rw [chunkTree, Tree.erase_node]
    refine Tree.forall_mem_preorder.2 ⟨?_, by simp [Tree.children]⟩
    have hwords {words : Option (List Char)} : (optionText words).map String.toList = words := by
      cases words <;> simp [optionText]
    show IsWords _ _ ∧ '\n' ∉ infoOf _ _
    rw [infoOf, hwords, hwords]
    exact h
  | heading span depth lines notes =>
    rw [chunkTree, Tree.erase_node]
    refine Tree.forall_mem_preorder.2 ⟨fun hbreaks => ?_, scannable_readLines lines⟩
    exact Int.ofNat_le.2 (h (flowing_of_breaks hbreaks))
  | paragraph span lines notes =>
    rw [chunkTree, Tree.erase_node]
    exact Tree.forall_mem_preorder.2 ⟨trivial, scannable_readLines lines⟩
  | rule span =>
    rw [chunkTree, Tree.erase_node]
    exact Tree.forall_mem_preorder.2 ⟨trivial, by simp [Tree.children]⟩
  | quote span lines =>
    rw [chunkTree, Tree.erase_node]
    exact Tree.forall_mem_preorder.2 ⟨trivial, List.forall_mem_map.2 (hrows (false, lines) (.head _)).1.nodes⟩
  | list marker items =>
    rw [chunkTree, Tree.erase_node]
    simp only [List.map_map, Function.comp_def]
    refine Tree.forall_mem_preorder.2 ⟨?_, List.forall_mem_map.2 fun item hitem => ?_⟩
    · rw [Tree.Scannable]
      dsimp only [Tree.content, Tree.children]
      rw [any_isSpread_items, List.length_map, List.any_map, Bool.or_eq_true]
      exact ⟨Or.imp_left length_of_itemsApart, .inr⟩
    · obtain ⟨hblocks, hne⟩ := hrows (true, item.lines) (List.mem_map_of_mem hitem)
      exact scannable_itemTree hblocks fun hchecked => hne (h item hitem hchecked)

end

private theorem scannable_assemble {inner : Inner} {s : Setting} {limit : Value} {gap : Bool} {ls : List Line}
    (hls : ∀ l ∈ ls, '\n' ∉ l.text)
    (hinner : ∀ seg ∈ s.segments limit gap ls, ∀ r ∈ seg.chunk.rows, (∀ l ∈ r.2, '\n' ∉ l.text) →
      (inner r.1 r.2).Scannable ∧ ((∃ l ∈ r.2, l.isBlank = false) → (inner r.1 r.2).trees ≠ [])) :
    (assemble inner (s.segments limit gap ls)).Scannable := by
  refine ⟨?_, apart_assemble (s.isChain_segments limit gap hls)⟩
  rw [trees_assemble, List.map_map, List.forall_mem_map]
  intro seg hseg
  obtain ⟨hproper, hrows⟩ := s.proper_segments limit gap hls seg hseg
  exact scannable_chunkTree hproper fun r hr => hinner seg hseg r hr (hrows r hr)

private theorem trees_readBlocks_ne_nil (o : ScanOptions) (room : Nat) (inItem : Bool) {ls : List Line}
    (h : ∃ l ∈ ls, l.isBlank = false) : (readBlocks o room inItem ls).trees ≠ [] := by
  obtain ⟨inner, s, hread⟩ := readBlocks_eq_assemble o room inItem
  rw [hread, trees_assemble, List.map_map]
  intro hnil
  obtain ⟨l, hl, hblank⟩ := h
  rw [Setting.segments_eq_nil (List.map_eq_nil_iff.1 hnil) l hl] at hblank
  cases hblank

private theorem scannable_readBlocks (o : ScanOptions) (room : Nat) (inItem : Bool) {ls : List Line}
    (hls : ∀ l ∈ ls, '\n' ∉ l.text) : (readBlocks o room inItem ls).Scannable := by
  induction room generalizing inItem ls with
  | zero =>
    refine scannable_assemble hls fun seg hseg r hr => ?_
    rw [Chunk.rows_eq_nil (Setting.isContainer_segments rfl seg hseg)] at hr
    cases hr
  | succ room ih =>
    exact scannable_assemble hls fun seg _ r _ hr => ⟨ih r.1 hr, trees_readBlocks_ne_nil o room r.1⟩

/-! ### Documents -/

private theorem not_closes_of_splitFrontMatter? {ls inner rest : List Line} {closing : Line}
    (h : splitFrontMatter? ls = some (inner, closing, rest)) : ∀ l ∈ inner, closesFrontMatter l.text = false := by
  induction ls generalizing inner with
  | nil => cases h
  | cons l ls ih =>
    unfold splitFrontMatter? at h
    split at h
    · cases h
      exact List.forall_mem_nil _
    · rename_i hcloses
      obtain ⟨⟨inner', closing', rest'⟩, hsplit, heq⟩ := Option.map_eq_some_iff.1 h
      cases heq
      exact List.forall_mem_cons.2 ⟨Bool.eq_false_iff.2 hcloses, ih hsplit⟩

private theorem valueLines_join {parts : List (List Char)} (h : ∀ part ∈ parts, '\n' ∉ part) :
    ∀ line ∈ valueLines (join ['\n'] parts), line ∈ parts := by
  intro line hline
  rw [valueLines] at hline
  split at hline
  · cases hline
  · rename_i hne
    rwa [fields_join (fun hnil => hne (by rw [hnil]; rfl)) h] at hline

/-- A document starts with front matter that none of its lines closes, or has none, and none of its lines holds a line
feed. -/
theorem splitDocument_cases (front : Bool) (text : List Char) :
    (∀ l ∈ (splitDocument front text).2, '\n' ∉ l.text) ∧
      ((splitDocument front text).1 = [] ∨ front = true ∧
        ∃ span value, (splitDocument front text).1 = [.node span (.frontMatter value) []] ∧
          ∀ line ∈ valueLines value.toList, closesFrontMatter line = false) := by
  have hnewline := newline_notMem_linesOf text
  unfold splitDocument
  cases hfound : (if front then frontMatter? (linesOf text) else none) with
  | none => exact ⟨hnewline, .inl rfl⟩
  | some found =>
    split at hfound
    · rename_i hfront
      unfold frontMatter? at hfound
      split at hfound
      · cases hfound
      · rename_i l ls hlines
        split at hfound
        · obtain ⟨⟨inner, closing, rest⟩, hsplit, rfl⟩ := Option.map_eq_some_iff.1 hfound
          rw [hlines, splitFrontMatter?_eq_some hsplit] at hnewline
          have hinner : ∀ part ∈ inner.map Line.text, '\n' ∉ part :=
            List.forall_mem_map.2 fun x hx => hnewline x (.tail _ (List.mem_append_left _ hx))
          refine ⟨fun x hx => hnewline x (.tail _ (List.mem_append_right _ (.tail _ hx))), .inr ⟨hfront, _, _, rfl, ?_⟩⟩
          rw [String.toList_ofList]
          intro line hline
          obtain ⟨x, hx, rfl⟩ := List.mem_map.1 (valueLines_join hinner line hline)
          exact not_closes_of_splitFrontMatter? hsplit x hx
        · cases hfound
    · cases hfound

private theorem scannable_readDocument (o : ScanOptions) (text : List Char) :
    ∀ u ∈ (readDocument o text).tree.erase.preorder, u.Scannable := by
  obtain ⟨hnewline, hfront⟩ := splitDocument_cases o.frontMatter text
  rw [readDocument_eq, Tree.erase_node]
  refine Tree.forall_mem_preorder.2 ⟨trivial, List.forall_mem_map.2 (List.forall_mem_append.2 ⟨?_, ?_⟩)⟩
  · rcases hfront with hnil | ⟨-, span, value, hone, -⟩
    · rw [hnil]
      exact List.forall_mem_nil _
    · rw [hone, List.forall_mem_singleton, Tree.erase_node]
      exact Tree.forall_mem_preorder.2 ⟨trivial, by simp [Tree.children]⟩
  · exact (scannable_readBlocks o _ _ hnewline).nodes

/-- All nodes of a document are arranged. -/
theorem arranged_readDocument (o : ScanOptions) (text : String) :
    ∀ u ∈ (readDocument o text.toList).tree.erase.preorder, u.Arranged := by
  obtain ⟨tree, htree, -, hgrammatical, hneat⟩ := scan_neat o none text
  cases (tree_scan o none text).symm.trans htree
  have hregular := regular_readDocument o text.toList
  have hscannable := scannable_readDocument o text.toList
  have hlegible : ∀ u ∈ (readDocument o text.toList).tree.erase.preorder, Legible u := by
    rw [← Tree.erase_map (Locator.ofText text.toList).positionOf, Tree.erase, Tree.preorder_map, List.forall_mem_map]
    exact fun u hu => legible_of_scan (hgrammatical u hu) (hneat u hu) _
  have hadmits : ∀ u ∈ (readDocument o text.toList).tree.erase.preorder,
      u.content.Admits (u.children.map Tree.content) := by
    rw [Tree.erase, Tree.preorder_map, List.forall_mem_map]
    intro u hu
    simpa only [Tree.content_map, Tree.children_map, List.map_map, Function.comp_def] using (hregular u hu).admits
  exact fun u hu => ⟨hscannable u hu, hlegible u hu, hadmits u hu⟩

end MarkdownTree.Scan
