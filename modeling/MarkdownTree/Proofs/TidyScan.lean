import MarkdownTree.Proofs.Append
import MarkdownTree.Proofs.Container
import MarkdownTree.Proofs.Tidy

/-!
# Scanned trees are tidy

No line that is read holds a line feed, however deep it lies, so the lines of a paragraph or a heading are joined by the
only line feeds in its content (`Chunk.Clear`, `clear_segments`), and each of them starts with something that is not
blank, as paragraphs end.  All nodes of scanned trees are tidy therefore (`scan_tidy`).
-/

namespace MarkdownTree

open Text

namespace Scan

variable {l : Line} {ls : List Line}

/-- Content that does not start with a blank, and none of whose lines does. -/
structure IsContent (cs : List Char) : Prop where
  first : cs ≠ [] → Visible cs 0
  lines : LinesVisible cs

/-- Inner lines hold no line feed, inline content has visible lines, and that of a paragraph ends visibly. -/
def Chunk.Clear : Chunk → Prop
  | .heading _ _ lines _ => IsContent (contentOf lines)
  | .paragraph _ lines _ => IsContent (contentOf lines) ∧ ∀ c ∈ (contentOf lines).getLast?, isBlank c = false
  | .quote _ lines => ∀ l ∈ lines, '\n' ∉ l.text
  | .list _ items => ∀ item ∈ items, ∀ l ∈ item.lines, '\n' ∉ l.text
  | _ => True

/-! ### Lines -/

theorem Line.EndOf.newline_notMem {a b : Line} (h : a.EndOf b) (hb : '\n' ∉ b.text) : '\n' ∉ a.text := by
  obtain ⟨n, -, rfl⟩ := h
  exact fun hmem => hb (List.mem_of_mem_drop hmem)

private theorem newline_notMem_of_forall₂ {as bs : List Line} (h : List.Forall₂ Line.EndOf as bs)
    (hbs : ∀ l ∈ bs, '\n' ∉ l.text) : ∀ l ∈ as, '\n' ∉ l.text := by
  intro l hl
  obtain ⟨outer, hmem, hend⟩ := Line.exists_outer h hl
  exact hend.newline_notMem (hbs outer hmem)

private theorem linesVisible_of_notMem {cs : List Char} (h : '\n' ∉ cs) : LinesVisible cs :=
  fun _ hi => absurd (List.mem_of_getElem? hi) h

private theorem visible_zero {c : Char} {cs : List Char} (h : isBlank c = false) : Visible (c :: cs) 0 :=
  ⟨c, rfl, h⟩

/-- Lines that start with something visible, joined by line feeds. -/
private theorem linesVisible_contentOf (h : ∀ l ∈ ls, '\n' ∉ l.text ∧ Visible l.text 0) :
    LinesVisible (contentOf ls) := by
  induction ls with
  | nil =>
    intro i hi
    simp [contentOf, join] at hi
  | cons l ls ih =>
    obtain ⟨⟨hl, -⟩, hls⟩ := List.forall_mem_cons.1 h
    cases ls with
    | nil => exact linesVisible_of_notMem (by simpa [contentOf, join] using hl)
    | cons m ls =>
      intro i hi
      rw [contentOf_cons_cons] at hi ⊢
      unfold Visible
      rcases Nat.lt_trichotomy i l.text.length with hlt | heq | hgt
      · rw [List.getElem?_append_left hlt] at hi
        exact absurd (List.mem_of_getElem? hi) hl
      · -- The next line starts behind the line feed.
        obtain ⟨c, hc, hblank⟩ := (hls m (.head _)).2
        refine ⟨c, ?_, hblank⟩
        rw [heq, List.getElem?_append_right (Nat.le_succ _), show l.text.length + 1 - l.text.length = 0 + 1 by omega,
          List.getElem?_cons_succ]
        obtain ⟨cs, hcs⟩ : ∃ cs, m.text = c :: cs := List.head?_eq_some_iff.1 (by rwa [List.head?_eq_getElem?])
        cases ls with
        | nil => simp [contentOf, join, hcs]
        | cons n ls => simp [contentOf_cons_cons, hcs]
      · obtain ⟨k, rfl⟩ := Nat.exists_eq_add_of_lt hgt
        have hnext : (l.text ++ '\n' :: contentOf (m :: ls))[l.text.length + k + 1]? = (contentOf (m :: ls))[k]? := by
          rw [List.getElem?_append_right (by omega), Nat.add_assoc, Nat.add_sub_cancel_left, List.getElem?_cons_succ]
        have hnext' : (l.text ++ '\n' :: contentOf (m :: ls))[l.text.length + k + 1 + 1]? =
            (contentOf (m :: ls))[k + 1]? := by
          rw [List.getElem?_append_right (by omega), Nat.add_assoc, Nat.add_assoc, Nat.add_sub_cancel_left,
            ← Nat.add_assoc, List.getElem?_cons_succ]
        rw [hnext] at hi
        rw [hnext']
        exact ih hls k hi

/-! ### Chunks -/

private theorem visible_trimStart {cs : List Char} (h : cs.all isBlank = false) : Visible (trimStart cs) 0 := by
  obtain ⟨c, hc, hblank⟩ := List.all_eq_false.1 h
  have hne : trimStart cs ≠ [] := fun hnil => hblank (List.dropWhile_eq_nil_iff.1 hnil c hc)
  obtain ⟨d, ds, hds⟩ := List.exists_cons_of_ne_nil hne
  have hnot := List.head?_dropWhile_not isBlank cs
  rw [show cs.dropWhile isBlank = d :: ds from hds] at hnot
  rw [hds]
  exact visible_zero (by simpa using hnot)

private theorem clear_paragraphLines (h : ∀ x ∈ l :: ls, '\n' ∉ x.text ∧ x.isBlank = false) :
    ∀ x ∈ Setting.paragraphLines (l :: ls), '\n' ∉ x.text ∧ Visible x.text 0 := by
  induction ls generalizing l with
  | nil =>
    obtain ⟨hnewline, hblank⟩ := h l (.head _)
    have hend := Line.trimStart_endOf l
    have hvisible : Visible l.trimStart.text 0 := by
      rw [Line.trimStart_text]
      exact visible_trimStart hblank
    simp only [Setting.paragraphLines, List.mem_singleton, forall_eq]
    refine ⟨fun hmem => hend.newline_notMem hnewline ((prefix_dropEndWhile _ _).subset hmem), ?_⟩
    -- Blanks are cut off at the end, but not the first character, which is none.
    obtain ⟨c, hc, hc'⟩ := hvisible
    obtain ⟨cs, hcs⟩ : ∃ cs, l.trimStart.text = c :: cs := List.head?_eq_some_iff.1 (by rwa [List.head?_eq_getElem?])
    have hne : trimEnd l.trimStart.text ≠ [] := trimEnd_ne_nil (by rw [hcs, List.all_cons, hc', Bool.false_and])
    obtain ⟨d, ds, hds⟩ := List.exists_cons_of_ne_nil hne
    have hbegins := prefix_dropEndWhile isBlank l.trimStart.text
    rw [show dropEndWhile isBlank l.trimStart.text = d :: ds from hds, hcs, List.cons_prefix_cons] at hbegins
    show Visible (trimEnd l.trimStart.text) 0
    rw [hds, hbegins.1]
    exact visible_zero hc'
  | cons m ls ih =>
    obtain ⟨⟨hnewline, hblank⟩, hls⟩ := List.forall_mem_cons.1 h
    refine List.forall_mem_cons.2 ⟨⟨(Line.trimStart_endOf l).newline_notMem hnewline, ?_⟩, ih hls⟩
    rw [Line.trimStart_text]
    exact visible_trimStart hblank

private theorem isContent_paragraphLines (h : ∀ x ∈ l :: ls, '\n' ∉ x.text ∧ x.isBlank = false) :
    IsContent (contentOf (Setting.paragraphLines (l :: ls))) := by
  have hclear := clear_paragraphLines h
  refine ⟨fun _ => ?_, linesVisible_contentOf hclear⟩
  cases hlines : Setting.paragraphLines (l :: ls) with
  | nil =>
    rw [hlines] at hclear
    cases ls <;> cases hlines
  | cons x xs =>
    rw [hlines] at hclear
    obtain ⟨-, c, hc, hblank⟩ := hclear x (.head _)
    obtain ⟨cs, hcs⟩ : ∃ cs, x.text = c :: cs := List.head?_eq_some_iff.1 (by rwa [List.head?_eq_getElem?])
    refine ⟨c, ?_, hblank⟩
    cases xs with
    | nil => simp [contentOf, join, hcs]
    | cons y ys => simp [contentOf_cons_cons, hcs]

private theorem getLast?_paragraphLines (h : ∀ x ∈ l :: ls, x.isBlank = false) :
    ∃ c, (contentOf (Setting.paragraphLines (l :: ls))).getLast? = some c ∧ isBlank c = false := by
  induction ls generalizing l with
  | nil =>
    obtain ⟨c, hc, hblank⟩ := visible_trimStart (h l (.head _))
    have hne : trimEnd l.trimStart.text ≠ [] := by
      rw [Line.trimStart_text]
      exact trimEnd_ne_nil (List.all_eq_false.2 ⟨c, List.mem_of_getElem? hc, by simp [hblank]⟩)
    have hlast := List.getLast?_eq_some_getLast hne
    exact ⟨_, hlast, getLast?_dropEndWhile hlast⟩
  | cons m ls ih =>
    obtain ⟨c, hc, hblank⟩ := ih (List.forall_mem_cons.1 h).2
    obtain ⟨x, xs, hlines⟩ : ∃ x xs, Setting.paragraphLines (m :: ls) = x :: xs := by
      cases ls <;> exact ⟨_, _, rfl⟩
    have hcons : Setting.paragraphLines (l :: m :: ls) = l.trimStart :: x :: xs := by
      rw [← hlines]
      rfl
    rw [hlines] at hc
    refine ⟨c, ?_, hblank⟩
    rw [hcons, contentOf_cons_cons, List.getLast?_append, List.getLast?_cons, hc]
    rfl

private theorem clear_markedHeading {body : Line} (hbody : '\n' ∉ body.text) (depth : Nat) :
    (Setting.markedHeading depth body).Clear := by
  have hbegins := (prefix_headingText (body.drop depth).trimStart.text).trans (prefix_dropEndWhile _ _)
  have hnewline : '\n' ∉ (body.drop depth).trimStart.text :=
    (Line.trimStart_endOf _).newline_notMem fun hmem => hbody (List.mem_of_mem_drop hmem)
  show IsContent (contentOf [_])
  have hcontent :
      contentOf [{ (body.drop depth).trimStart with text := headingText (body.drop depth).trimStart.text }] =
      headingText (body.drop depth).trimStart.text := rfl
  rw [hcontent]
  refine ⟨fun hne => ?_, linesVisible_of_notMem fun hmem => hnewline (hbegins.subset hmem)⟩
  obtain ⟨c, cs, hcs⟩ := List.exists_cons_of_ne_nil hne
  rw [hcs] at hbegins ⊢
  obtain ⟨more, hmore⟩ := hbegins
  have hnot := List.head?_dropWhile_not isBlank (body.drop depth).text
  rw [Line.trimStart_text] at hmore
  rw [show (body.drop depth).text.dropWhile isBlank = c :: cs ++ more from hmore.symm] at hnot
  exact visible_zero (by simpa using hnot)

namespace Setting

variable (s : Setting)

private theorem clear_quote (h : ∀ x ∈ l :: ls, '\n' ∉ x.text) : (s.quote l ls).1.Clear :=
  newline_notMem_of_forall₂ (s.endOf_quotedLines (l :: ls)).1 fun x hx => h x (List.mem_of_mem_take hx)

private theorem clear_item {m : Marker} (hm : m.Within l) (h : ∀ x ∈ l :: ls, '\n' ∉ x.text) :
    ∀ x ∈ (s.item m ls).1.lines, '\n' ∉ x.text := by
  obtain ⟨hl, hls⟩ := List.forall_mem_cons.1 h
  have hmore (previous : Line) (fence : Option Fence) :
      ∀ x ∈ dropEndWhile Line.isBlank (s.itemLines m.contentIndent previous fence ls), '\n' ∉ x.text := by
    intro x hx
    refine newline_notMem_of_forall₂ (s.endOf_itemLines m.contentIndent previous fence ls) ?_ x
      ((prefix_dropEndWhile _ _).subset hx)
    exact fun y hy => hls y (List.mem_of_mem_take hy)
  have hcontent := hm.content.newline_notMem hl
  unfold item
  cases hbox : taskBox? m.content.text with
  | none => exact List.forall_mem_cons.2 ⟨hcontent, hmore _ _⟩
  | some box => exact List.forall_mem_cons.2 ⟨fun hmem => hcontent (List.mem_of_mem_drop hmem), hmore _ _⟩

private theorem clear_items {l : Line} {ls : List Line} {m : Marker} (hm : m.Within l)
    (h : ∀ x ∈ l :: ls, '\n' ∉ x.text) :
    ∀ item ∈ (s.items m ls).1, ∀ x ∈ item.lines, '\n' ∉ x.text := by
  have hfirst := s.clear_item hm h
  rcases s.items_cases m ls with heq | ⟨opening, rest, next, hdrop, hread, -, heq⟩
  · rw [heq]
    simpa using hfirst
  · rw [heq]
    have hrest : ∀ x ∈ opening :: rest, '\n' ∉ x.text := by
      rw [← hdrop]
      exact fun x hx => h x (.tail _ (List.mem_of_mem_drop hx))
    exact List.forall_mem_cons.2 ⟨hfirst, clear_items (Marker.read?_within hread) hrest⟩
termination_by ls.length
decreasing_by
  have hlen := congrArg List.length hdrop
  simp only [List.length_drop, List.length_cons] at hlen
  omega

private theorem clear_paragraph (notes : List Note) (hl : l.isBlank = false) (h : ∀ x ∈ l :: ls, '\n' ∉ x.text) :
    (s.paragraph notes l ls).1.Clear := by
  have hcontent : IsContent (contentOf (paragraphLines (l :: ls.takeWhile s.goesOn))) := by
    refine isContent_paragraphLines (List.forall_mem_cons.2 ⟨⟨h l (.head _), hl⟩, fun x hx => ?_⟩)
    exact ⟨h x (.tail _ ((List.takeWhile_prefix _).subset hx)), s.not_blank_of_goesOn (List.mem_takeWhile_imp hx)⟩
  have hlast : ∀ c ∈ (contentOf (paragraphLines (l :: ls.takeWhile s.goesOn))).getLast?, isBlank c = false := by
    obtain ⟨c, hc, hblank⟩ := getLast?_paragraphLines (List.forall_mem_cons.2
      ⟨hl, fun x hx => s.not_blank_of_goesOn (List.mem_takeWhile_imp hx)⟩)
    rw [hc]
    rintro _ ⟨⟩
    exact hblank
  unfold paragraph
  dsimp only
  split
  · split
    · exact hcontent
    · exact ⟨hcontent, hlast⟩
  · exact ⟨hcontent, hlast⟩

private theorem clear_chunk (limit : Value) (hl : l.isBlank = false) (h : ∀ x ∈ l :: ls, '\n' ∉ x.text) :
    (s.chunk limit l ls).1.Clear := by
  have hbody : '\n' ∉ l.trimStart.text := (Line.trimStart_endOf l).newline_notMem (h l (.head _))
  rcases s.chunk_cases limit l with hc | ⟨fence, -, hc⟩ | ⟨depth, -, hc⟩ | hc | hc | ⟨m, hread, hc⟩ | hc
  · rw [hc]
    trivial
  · rw [hc]
    unfold fencedCode
    dsimp only
    split
    · trivial
    · trivial
  · rw [hc]
    exact clear_markedHeading hbody depth
  · rw [hc]
    trivial
  · rw [hc]
    exact s.clear_quote h
  · rw [hc]
    exact s.clear_items (Marker.read?_within hread) h
  · rw [hc]
    exact s.clear_paragraph _ hl h

theorem clear_segments (limit : Value) (gap : Bool) (ls : List Line) (h : ∀ l ∈ ls, '\n' ∉ l.text) :
    ∀ segment ∈ s.segments limit gap ls, segment.chunk.Clear := by
  intro segment hsegment
  obtain ⟨l, rest, hsuffix, hl, hchunk⟩ := s.exists_chunk_of_mem_segments hsegment
  rw [hchunk]
  exact s.clear_chunk limit hl fun x hx => h x (hsuffix.subset hx)

end Setting

/-! ### Blocks -/

/-- All nodes of a tree are tidy. -/
def TidyTree {α : Type} (t : Tree α) : Prop :=
  ∀ u ∈ t.preorder, u.content.Tidy (u.children.map Tree.content)

theorem TidyTree.map {α β : Type} {t : Tree α} (h : TidyTree t) (f : α → β) : TidyTree (t.map f) := by
  rw [TidyTree, Tree.preorder_map, List.forall_mem_map]
  intro u hu
  have htidy := h u hu
  simpa only [Tree.content_map, Tree.children_map, List.map_map, Function.comp_def] using htidy

private theorem tidyTree_node {α : Type} {note : α} {content : Content} {children : List (Tree α)}
    (h : content.Tidy (children.map Tree.content)) (hbelow : ∀ t ∈ children, TidyTree t) :
    TidyTree (.node note content children) :=
  Tree.forall_mem_preorder.2 ⟨h, hbelow⟩

/-- Content is read as the tidy children of a heading, or of a paragraph if it does not end with a blank. -/
private theorem tidy_readLines {lines : List Line} (h : IsContent (contentOf lines)) (depth : Int) :
    (Content.heading depth).Tidy ((readLines lines).trees.map Tree.content) ∧
      ((∀ c ∈ (contentOf lines).getLast?, isBlank c = false) →
        Content.paragraph.Tidy ((readLines lines).trees.map Tree.content)) ∧
          ∀ t ∈ (readLines lines).trees, TidyTree t := by
  have hrow := tidyRow_readInline h.lines
  have hcontents : (readLines lines).trees.map Tree.content =
      (readInline (contentOf lines)).trees.map Tree.content := by
    simp only [readLines, List.map_map, Function.comp_def, Tree.content_map]
  have hfirst : ∀ c ∈ ((readInline (contentOf lines)).trees.map Tree.content).head?, c.OpensVisibly := by
    intro c hc
    by_cases hne : contentOf lines = []
    · rw [← hcontents, trees_readLines_eq_nil hne] at hc
      cases hc
    · exact (hrow.first c hc).visibly (h.first hne)
  rw [hcontents]
  refine ⟨⟨hrow.next, hfirst, fun c hc hends => ?_⟩, fun hlast => ⟨hrow.next, hfirst, fun c hc => ?_⟩, fun t ht => ?_⟩
  · -- Nothing stands behind a line feed at the very end.
    obtain ⟨d, hd, -⟩ := h.lines.of_endsLine ((hrow.last c hc).line hends)
    simp at hd
  · by_cases hne : contentOf lines = []
    · rw [← hcontents, trees_readLines_eq_nil hne] at hc
      cases hc
    · have hlength := List.length_pos_iff.2 hne
      have hend := List.getLast?_eq_some_getLast hne
      refine (hrow.last c hc).visibly ⟨(contentOf lines).length - 1, by omega, _, ?_, hlast _ hend⟩
      rw [← List.getLast?_eq_getElem?, hend]
  · obtain ⟨u, hu, rfl⟩ := List.mem_map.1 ht
    exact (show TidyTree u from hrow.tidy u hu).map _

/-- The blocks inside containers are tidy if no line holds a line feed. -/
def Inner.Tidies (inner : Inner) : Prop :=
  ∀ inItem ls, (∀ l ∈ ls, '\n' ∉ l.text) → ∀ t ∈ (inner inItem ls).trees, TidyTree t

private theorem tidy_chunkTree {inner : Inner} (hinner : inner.Tidies) {c : Chunk} (h : c.Clear) :
    TidyTree (chunkTree inner c).1 := by
  cases c with
  | code | rule => exact tidyTree_node trivial (by simp)
  | heading span depth lines notes =>
    obtain ⟨htidy, -, hbelow⟩ := tidy_readLines h depth
    exact tidyTree_node htidy hbelow
  | paragraph span lines notes =>
    obtain ⟨-, htidy, hbelow⟩ := tidy_readLines h.1 0
    exact tidyTree_node (htidy h.2) hbelow
  | quote span lines => exact tidyTree_node trivial (hinner false lines h)
  | list marker items =>
    refine tidyTree_node trivial fun t ht => ?_
    simp only [List.map_map, List.mem_map, Function.comp_apply] at ht
    obtain ⟨item, hitem, rfl⟩ := ht
    exact tidyTree_node trivial (hinner true item.lines (h item hitem))

private theorem tidies_readBlocks (o : ScanOptions) (room : Nat) : (readBlocks o room).Tidies := by
  have hassemble {inner : Inner} (hinner : inner.Tidies) (s : Setting) (ls : List Line)
      (hls : ∀ l ∈ ls, '\n' ∉ l.text) :
      ∀ t ∈ (assemble inner (s.segments o.nestingLimit false ls)).trees, TidyTree t := by
    rw [trees_assemble, List.map_map]
    intro t ht
    obtain ⟨segment, hsegment, rfl⟩ := List.mem_map.1 ht
    exact tidy_chunkTree hinner (s.clear_segments o.nestingLimit false ls hls segment hsegment)
  induction room with
  | zero => exact fun inItem ls hls => hassemble (fun _ _ _ => by simp) _ ls hls
  | succ room ih => exact fun inItem ls hls => hassemble ih _ ls hls

theorem newline_notMem_linesOf (text : List Char) : ∀ l ∈ linesOf text, '\n' ∉ l.text :=
  fun _ hl hmem => (mem_text_linesOf (List.mem_map_of_mem hl) hmem).2 rfl

private theorem tidy_readDocument (o : ScanOptions) (text : List Char) : TidyTree (readDocument o text).tree := by
  have hsplit : (∀ t ∈ (splitDocument o.frontMatter text).1, TidyTree t) ∧
      ∀ l ∈ (splitDocument o.frontMatter text).2, '\n' ∉ l.text := by
    unfold splitDocument
    cases hfound : (if o.frontMatter then frontMatter? (linesOf text) else none) with
    | none => exact ⟨by simp, newline_notMem_linesOf text⟩
    | some found =>
      obtain ⟨t, rest⟩ := found
      have hfound : frontMatter? (linesOf text) = some (t, rest) := by
        split at hfound
        · exact hfound
        · cases hfound
      unfold frontMatter? at hfound
      split at hfound
      · cases hfound
      · rename_i l ls hlines
        split at hfound
        · obtain ⟨⟨inner, closing, rest'⟩, hinner, heq⟩ := Option.map_eq_some_iff.1 hfound
          cases heq
          refine ⟨List.forall_mem_singleton.2 (tidyTree_node trivial (by simp)), fun x hx => ?_⟩
          refine newline_notMem_linesOf text x ?_
          rw [hlines, splitFrontMatter?_eq_some hinner]
          exact .tail _ (List.mem_append_right _ (.tail _ hx))
        · cases hfound
  rw [readDocument_eq]
  exact tidyTree_node trivial (List.forall_mem_append.2 ⟨hsplit.1, tidies_readBlocks o _ _ _ hsplit.2⟩)

end Scan

open Scan

/-- All nodes of scanned trees are tidy. -/
theorem scan_tidy (o : ScanOptions) (path : Option String) (text : String) :
    ∃ tree, (Scan.scan o path text).tree = some tree ∧ TidyTree tree :=
  ⟨_, tree_scan o path text, (tidy_readDocument o text.toList).map _⟩

end MarkdownTree
