import MarkdownTree.Proofs.SilencePrint
import MarkdownTree.Proofs.SoundPrint

/-!
# Sound documents

A document of sound blocks is printed as lines that are read as these blocks (`readDocument_printed`), with front matter
before them if it has some.
-/

namespace MarkdownTree

open Text Scan Print

/-! ### Front matter -/

/-- The line before and after front matter. -/
def frontMark : List Char :=
  ['-', '-', '-']

/-- The lines of front matter. -/
def frontLines (value : List Char) : List (List Char) :=
  frontMark :: (valueLines value ++ [frontMark])

private theorem fields_frontMatterText (value : String) :
    fields '\n' (frontMatterText (.text value)) = frontLines value.toList := by
  have htext : frontMatterText (.text value) = join ['\n'] (frontLines value.toList) := by
    have hne : valueLines value.toList ++ [frontMark] ≠ [] := by simp
    obtain ⟨line, lines, hlines⟩ := List.exists_cons_of_ne_nil hne
    rw [frontLines, hlines, join_cons_cons, ← hlines, join_valueLines_concat]
    by_cases hvalue : value = ""
    · simp [frontMatterText, Value.truthy, frontMark, hvalue]
    · simp [frontMatterText, Value.truthy, Value.plainText, frontMark, hvalue]
  rw [htext]
  refine fields_join (List.cons_ne_nil _ _) (List.forall_mem_cons.2 ⟨by decide, List.forall_mem_append.2
    ⟨fun line hline => ?_, List.forall_mem_singleton.2 (by decide)⟩⟩)
  exact newline_notMem_fields _ line (mem_fields_of_valueLines hline)

namespace Scan

private theorem splitFrontMatter?_append {inner : List Line} {closing : Line}
    (hinner : ∀ l ∈ inner, closesFrontMatter l.text = false) (hclosing : closesFrontMatter closing.text = true)
    (rest : List Line) :
    splitFrontMatter? (inner ++ closing :: rest) = some (inner, closing, rest) := by
  induction inner with
  | nil => rw [List.nil_append, splitFrontMatter?, if_pos hclosing]
  | cons l inner ih =>
    obtain ⟨hl, hinner⟩ := List.forall_mem_cons.1 hinner
    rw [List.cons_append, splitFrontMatter?, hl, if_neg Bool.false_ne_true, ih hinner]
    rfl

/-- Lines of front matter are read as such. -/
private theorem frontMatter?_frontLines {value : List Char}
    (h : ∀ line ∈ valueLines value, closesFrontMatter line = false)
    {ls : List Line} (hls : ls.map Line.text = frontLines value) (rest : List Line) :
    ∃ span, frontMatter? (ls ++ rest) = some (.node span (.frontMatter (String.ofList value)) [], rest) := by
  obtain ⟨l, ls, rfl, hl, hls⟩ := List.map_eq_cons_iff.1 hls
  obtain ⟨inner, last, rfl, hinner, hlast⟩ := List.map_eq_append_iff.1 hls
  obtain ⟨closing, rfl, hclosing⟩ := List.map_eq_singleton_iff.1 hlast
  have hopen : ∀ l ∈ inner, closesFrontMatter l.text = false := by
    intro l hl
    refine h l.text ?_
    rw [← hinner]
    exact List.mem_map_of_mem hl
  have hcloses : closesFrontMatter closing.text = true := by
    rw [hclosing]
    rfl
  have hsplit := splitFrontMatter?_append hopen hcloses rest
  rw [List.cons_append, List.append_assoc, List.singleton_append, frontMatter?, hl, if_pos (by rfl), hsplit]
  dsimp only [Option.map_some]
  rw [hinner, join_valueLines]
  exact ⟨_, rfl⟩

/-- A blank line before blocks changes nothing about them. -/
private theorem trees_readBlocks_blank (o : ScanOptions) (room : Nat) (inItem : Bool) {l : Line} (hl : l.isBlank = true)
    (ls : List Line) : (readBlocks o room inItem (l :: ls)).trees = (readBlocks o room inItem ls).trees := by
  have hchunks (s : Setting) (limit : Value) : (s.segments limit true ls).map Segment.chunk =
      (s.segments limit false ls).map Segment.chunk := by
    cases ls with
    | nil => rw [Setting.segments, Setting.segments]
    | cons l ls =>
      rw [Setting.segments, Setting.segments]
      split <;> rfl
  rw [readBlocks_eq, readBlocks_eq, Setting.segments, if_pos hl, trees_assemble, trees_assemble, hchunks]

end Scan

namespace Print

/-! ### Documents -/

/-- The lines of a document, with front matter or without. -/
def documentLines (front : Option String) (row : List Block) : List (List Char) :=
  match front with
  | none => rowLines false row
  | some value => if row.isEmpty then frontLines value.toList else frontLines value.toList ++ [] :: rowLines false row

/-- The children of the root of a document. -/
def documentChildren (front : Option String) (ts : List (Tree Unit)) : List (Tree Unit) :=
  (front.map fun value => .node () (.frontMatter value) []).toList ++ ts

variable (o : ScanOptions) (q : PrintOptions) {front : Option String} {ts : List (Tree Unit)}

/-- The lines of a document are read as its blocks. -/
theorem readDocument_of_lines (hfront : front.isSome = true → o.frontMatter = true)
    (hvalue : ∀ value ∈ front, ∀ line ∈ valueLines value.toList, closesFrontMatter line = false) {row : List Block}
    (hstands : ∀ d ∈ row, d.Stands o) (hmeets : row.IsChain (Block.Meets false))
    (hroom : ∀ d ∈ row, d.tree.nesting ≤ o.maxNesting)
    (hopens : front = none → ∀ d ∈ row.head?, ∀ line ∈ d.lines.head?, opensFrontMatter line = false) {text : List Char}
    (htext : (linesOf text).map Line.text = documentLines front row) :
    (readDocument o text).tree.erase = .node () .root (documentChildren front (row.map Block.tree)) := by
  have hread {ls : List Line} (hls : ls.map Line.text = rowLines false row) :
      (readBlocks o o.maxNesting false ls).trees.map Tree.erase = row.map Block.tree :=
    (readBlocks_row (fun hfalse => by cases hfalse) hstands hmeets hroom hls).1
  rw [readDocument_eq, Tree.erase_node]
  cases front with
  | none =>
    obtain ⟨line, rest, hrow, hline⟩ : ∃ line rest,
        rowLines false row = line :: rest ∧ opensFrontMatter line = false := by
      cases row with
      | nil => exact ⟨[], [], rfl, rfl⟩
      | cons d row =>
        obtain ⟨line, more, hd, -⟩ := (hstands d (.head _)).head
        have hline := hopens rfl d rfl line (by rw [hd]; rfl)
        obtain ⟨rest, hrow⟩ := List.head?_eq_some_iff.1 (head?_rowLines (by rw [hd]; rfl) false row)
        exact ⟨line, rest, hrow, hline⟩
    rw [splitDocument_of_head (htext.trans hrow) hline]
    exact congrArg _ (hread htext)
  | some value =>
    obtain ⟨ls, rest, hlines, hls, hrest⟩ : ∃ ls rest, linesOf text = ls ++ rest ∧
        ls.map Line.text = frontLines value.toList ∧
          (readBlocks o o.maxNesting false rest).trees.map Tree.erase = row.map Block.tree := by
      rw [documentLines] at htext
      split at htext
      · rename_i hempty
        obtain rfl := List.isEmpty_iff.1 hempty
        refine ⟨linesOf text, [], (List.append_nil _).symm, htext, ?_⟩
        rw [readBlocks_eq, Setting.segments]
        rfl
      · obtain ⟨ls, more, hlines, hls, hmore⟩ := List.map_eq_append_iff.1 htext
        obtain ⟨l, rest, rfl, hl, hrest⟩ := List.map_eq_cons_iff.1 hmore
        refine ⟨ls, l :: rest, hlines, hls, ?_⟩
        rw [trees_readBlocks_blank o _ _ (by rw [Line.isBlank, hl]; rfl)]
        exact hread hrest
    obtain ⟨span, hmatter⟩ := frontMatter?_frontLines (hvalue value rfl) hls rest
    have hsplit : splitDocument o.frontMatter text = ([.node span (.frontMatter value) []], rest) := by
      rw [splitDocument, hfront rfl, if_pos rfl, hlines, hmatter, String.ofList_toList]
    rw [hsplit, List.map_append, hrest]
    rfl

/-- A sound root is printed as the lines of its front matter and of blocks that stand for the others. -/
theorem exists_document (front : Option String) (h : ∀ u ∈ Tree.preorderList ts, u.Arranged)
    (hsound : ∀ u ∈ Tree.preorderList ts, u.Sound q) (hflow : ∀ c ∈ ts.map Tree.content, c.kind.isFlow = true) : ∃ text row,
      printTree q (Tree.node () .root (documentChildren front ts)) = .ok (if text.isEmpty then [] else text ++ ['\n']) ∧
      fields '\n' text = documentLines front row ∧ row.map Block.tree = ts ∧ (∀ d ∈ row, d.Stands o) ∧
      row.IsChain (Block.Meets false) ∧
      (front = none → ∀ d ∈ row.head?, ∀ line ∈ d.lines.head?, opensFrontMatter line = false) := by
  let f : Frame := { kind := .root }
  let site : Site := { kind := .root }
  have hsite : site.Fits f := ⟨rfl, rfl, by simp [site], fun _ => rfl⟩
  have hclean : Pen.Clean { symbols := [none] } := ⟨⟨false, rfl⟩, rfl, rfl⟩
  have hprinted {xs : List (List Char)} {pen : Pen} (hrun : (Printer.standard q).renderBlocks {} f
      (Draft.ofTrees (unplaced (documentChildren front ts))) { symbols := [none] } = .ok (xs, pen)) :
      printTree q (Tree.node () .root (documentChildren front ts)) =
        .ok (if (join f.separator xs).isEmpty then [] else join f.separator xs ++ ['\n']) :=
    printTree_eq q ((congrFun (render_container q {} none _ rfl) {}).trans (run_bind _ _ (enclosed_eq hrun)))
  cases front with
  | none =>
    obtain ⟨xs, pen, row, hrun, -, hrow⟩ := exists_row o q ts h hsound hflow hsite {} hclean (by simp)
      (fits_nothing (f := f) rfl) fun htight => by cases htight
    refine ⟨_, row, hprinted hrun, fields_join_row hrow.lines f, hrow.trees, hrow.stands, hrow.meets, fun _ d hd => ?_⟩
    exact (hrow.joins d hd).front rfl rfl
  | some value =>
    let matter : Tree Unit := .node () (.frontMatter value) []
    have hmatter (s : Scene) :
        (Printer.standard q).render s (printed matter) = pure (frontMatterText (.text value)) := by
      funext pen
      rw [printed, Tree.map, Draft.ofTree, Printer.render]
      exact run_bind () pen rfl
    have hfits : Before.other.Fits { f with previous := some (printed matter) } (Pen.symbol? { symbols := [none] }) :=
      fits_after (b := .nothing) q (.node none (.frontMatter value) []) rfl (by rintro ordered start spread ⟨⟩)
    obtain ⟨xs, pen, row, hrun, -, hrow⟩ := exists_row o q ts h hsound hflow (hsite.after (some (printed matter)))
      (({} : Scene).past (emphasisCount (printed matter))) hclean (by simp) hfits fun htight => by cases htight
    have htext : frontMatterText (.text value) ≠ [] := by simp [frontMatterText]
    have hruns : (Printer.standard q).renderBlocks {} f (Draft.ofTrees (unplaced (documentChildren (some value) ts)))
        { symbols := [none] } = .ok (frontMatterText (.text value) :: xs, pen) := by
      rw [documentChildren, Option.map_some, Option.toList_some, List.singleton_append, unplaced, Tree.mapList,
        Draft.ofTrees, Printer.renderBlocks]
      refine (run_bind (frontMatterText (.text value)) _ (congrFun (hmatter _) _)).trans
        ((run_bind xs pen hrun).trans ?_)
      rw [if_neg (by simpa using htext)]
      rfl
    refine ⟨_, row, hprinted hruns, ?_, hrow.trees, hrow.stands, hrow.meets, fun hnone => by cases hnone⟩
    have hjoin := fields_join_rows true (frontMatterText (.text value)) xs
    rw [List.map_cons, hrow.lines, fields_frontMatterText] at hjoin
    refine hjoin.trans ?_
    cases row with
    | nil => rfl
    | cons d row => exact List.append_assoc _ _ _

end Print

end MarkdownTree
