import MarkdownTree.Proofs.QuietPrint
import MarkdownTree.Proofs.RoundTrip

/-!
# Forms of headings

A printed heading has marks before it or is underlined.  Marked headings hold a line feed only where a link or an image
does, and underlined ones do not stand directly below a paragraph.  Without such links and images the lines of a printed
heading are read as a heading of the same depth, wherever they stand: marked ones interrupt every paragraph, and
underlined ones open nothing before their underline (`scan_render_heading`).
-/

namespace MarkdownTree.Print

open Text Scan

/-- The lines of a text are read as a heading of a depth wherever they stand, and no line after them is. -/
def ReadsAsHeading (depth : Nat) (printed : List Char) : Prop :=
  ∀ (s : Setting) (limit : Value) (l : Line) (ls rest : List Line), (l :: ls).map Line.text = fields '\n' printed →
    ∃ span lines notes, s.chunk limit l (ls ++ rest) = (.heading span depth lines notes, ls.length)

/-- Content with marks before it, and after it if the marks are closed; it has a line feed in it if and only if a link
or an image does, and else it interrupts every paragraph. -/
def IsMarkedHeading (closed : Bool) (depth : Nat) (holdsNewline : Prop) (printed : List Char) : Prop :=
  ∃ content, printed = atxText closed (List.replicate depth '#') content ∧ ('\n' ∈ content ↔ holdsNewline) ∧
    (¬holdsNewline → ∀ (s : Setting) (l : Line), l.text = printed → s.interrupts l = true)

/-- Content with a line under it, at a place where no paragraph stands directly before it: its lines would go on any
paragraph unless a link or an image has a line feed in it. -/
def IsUnderlinedHeading (frame : Option Frame) (depth : Nat) (holdsNewline : Prop) (printed : List Char) : Prop :=
  ∃ content, printed = setextText (.int depth) content ∧ depth ≤ 2 ∧ frame.any Frame.belowParagraph = false ∧
    (¬holdsNewline → ∀ line ∈ fields '\n' content, ∀ (s : Setting) (l : Line), l.text = line → s.goesOn l = true)

variable {α : Type}

/-- What a heading is printed as in a container, by the nodes of its content. -/
structure IsHeadingText (closed : Bool) (frame : Option Frame) (depth : Nat) (ts : List (Tree α))
    (printed : List Char) :
    Prop where
  form : IsMarkedHeading closed depth (∃ u ∈ Tree.preorderList ts, u.content.HoldsNewline) printed ∨
    IsUnderlinedHeading frame depth (∃ u ∈ Tree.preorderList ts, u.content.HoldsNewline) printed
  reads : (¬∃ u ∈ Tree.preorderList ts, u.content.HoldsNewline) → ReadsAsHeading depth printed

/-! ### Marked headings -/

theorem atxText_eq_append (closed : Bool) (depth : Nat) (content : List Char) :
    ∃ more, atxText closed (List.replicate depth '#') content = List.replicate depth '#' ++ more ∧
      endsOrGap more = true ∧ ('\n' ∈ more ↔ '\n' ∈ content) := by
  unfold atxText
  cases content with
  | nil => exact ⟨[], by simp, rfl, by simp⟩
  | cons c cs =>
    refine ⟨' ' :: (c :: cs ++ if closed then ' ' :: List.replicate depth '#' else []), ?_, rfl, ?_⟩
    · simp
    · cases closed <;> simp

private theorem readsAsHeading_atxText (closed : Bool) {depth : Nat} (hone : 1 ≤ depth) (hsix : depth ≤ 6)
    {content : List Char}
    (h : '\n' ∉ content) : ReadsAsHeading depth (atxText closed (List.replicate depth '#') content) ∧
      ∀ (s : Setting) (l : Line), l.text = atxText closed (List.replicate depth '#') content →
        s.interrupts l = true := by
  obtain ⟨more, heq, hgap, hnewline⟩ := atxText_eq_append closed depth content
  rw [heq]
  refine ⟨fun s limit l ls rest hlines => ?_, fun s l hl => (s.chunk_marked .null hone hsix hl hgap []).2⟩
  rw [fields_of_notMem (by simp [hnewline, h])] at hlines
  obtain ⟨hl, hls⟩ := List.cons.inj hlines
  obtain rfl := List.map_eq_nil_iff.1 hls
  exact ⟨_, _, _, (s.chunk_marked limit hone hsix hl hgap rest).1⟩

/-! ### Underlined headings -/

private theorem exists_of_mem_parts {parts : List (List Char)} (h : ∀ part ∈ parts, '\n' ∉ part) {line : List Char}
    (hline : line ∈ parts) :
    ∃ init rest, join ['\n'] parts = init ++ rest ∧ startsAfter true init = true ∧ firstLine rest = line := by
  have hfirst {part : List Char} (hpart : '\n' ∉ part) (rest : List Char) :
      firstLine (part ++ '\n' :: rest) = part := by
    rw [firstLine_append hpart]
    exact List.append_nil part
  induction parts with
  | nil => cases hline
  | cons part parts ih =>
    obtain ⟨hpart, hparts⟩ := List.forall_mem_cons.1 h
    cases parts with
    | nil =>
      obtain rfl := List.mem_singleton.1 hline
      refine ⟨[], line, rfl, rfl, ?_⟩
      have hnil := firstLine_append hpart []
      rwa [List.append_nil, show firstLine [] = [] from rfl, List.append_nil] at hnil
    | cons next parts =>
      rw [join_cons_cons]
      rcases List.mem_cons.1 hline with rfl | hline
      · exact ⟨[], _, rfl, rfl, hfirst hpart _⟩
      · obtain ⟨init, rest, hsplit, hstart, hrest⟩ := ih hparts hline
        refine ⟨part ++ '\n' :: init, rest, by simp [hsplit], ?_, hrest⟩
        rw [startsAfter_append]
        cases init with
        | nil => rfl
        | cons c init =>
          rw [startsAfter_of_ne (by simp) true] at hstart
          rw [← List.singleton_append, startsAfter_append, startsAfter_of_ne (by simp) true]
          exact hstart

/-- Every line of a text is the first one after a start of a line. -/
private theorem exists_of_mem_fields {x line : List Char} (h : line ∈ fields '\n' x) :
    ∃ init rest, x = init ++ rest ∧ startsAfter true init = true ∧ firstLine rest = line := by
  have hparts := exists_of_mem_parts (newline_notMem_fields x) h
  rwa [join_fields] at hparts

theorem fields_concat (x : List Char) {y : List Char} (hy : '\n' ∉ y) :
    fields '\n' (x ++ '\n' :: y) = fields '\n' x ++ [y] := by
  have hjoin := join_concat (fields_ne_nil '\n' x) y
  rw [join_fields] at hjoin
  rw [← hjoin, fields_join (by simp)]
  exact List.forall_mem_append.2 ⟨newline_notMem_fields x, by simpa using hy⟩

private theorem readsAsHeading_setextText {depth : Nat} (hdepth : depth = 1 ∨ depth = 2) {content : List Char}
    (h : ∀ line ∈ fields '\n' content, IsQuiet line) : ReadsAsHeading depth (setextText (.int depth) content) := by
  obtain ⟨mark, hmark, htext, rfl⟩ : ∃ mark, (mark = '=' ∨ mark = '-') ∧
      setextText (.int depth) content = content ++ '\n' :: List.replicate 3 mark ∧
        depth = if mark = '=' then 1 else 2 := by
    rcases hdepth with rfl | rfl
    · exact ⟨'=', .inl rfl, rfl, rfl⟩
    · exact ⟨'-', .inr rfl, rfl, rfl⟩
  intro s limit l ls rest hlines
  have hnewline : '\n' ∉ List.replicate 3 mark := by rcases hmark with rfl | rfl <;> decide
  rw [htext, fields_concat content hnewline] at hlines
  obtain ⟨first, lines, hfields⟩ := List.exists_cons_of_ne_nil (fields_ne_nil '\n' content)
  rw [hfields, List.cons_append, List.map_cons] at hlines
  obtain ⟨hl, hls⟩ := List.cons.inj hlines
  obtain ⟨before, after, rfl, hbefore, hafter⟩ := List.map_eq_append_iff.1 hls
  obtain ⟨under, rfl, hunder⟩ := List.map_eq_singleton_iff.1 hafter
  have hquiet : ∀ x ∈ l :: before, IsQuiet x.text := by
    intro x hx
    refine h x.text ?_
    rw [hfields, ← hl, ← hbefore]
    exact List.mem_map_of_mem (f := Line.text) hx
  rw [List.append_assoc, List.singleton_append, s.chunk_underlined limit hquiet (s.underline?_marks hmark hunder),
    List.length_append]
  exact ⟨_, _, _, rfl⟩

theorem quiet_of_writes {ts : List (Tree α)} (hneat : ∀ u ∈ Tree.preorderList ts, u.Neat) (hrow : Tree.NeatRow true ts)
    (hlast : ∀ t ∈ ts.getLast?, ¬t.content.EndsLine) (hplain : ∀ u ∈ Tree.preorderList ts, ¬u.content.HoldsNewline)
    {x : List Char} (h : Writes false true ts x) (hne : ts ≠ []) : ∀ line ∈ fields '\n' x, IsQuiet line := by
  intro line hline
  obtain ⟨init, rest, rfl, hstart, rfl⟩ := exists_of_mem_fields hline
  by_cases hrest : rest = []
  · -- No line starts at the end of the content.
    rw [hrest, List.append_nil] at h
    rcases h.endsLine hneat hstart with ⟨hnil, -⟩ | ⟨t, ht, hends⟩
    · exact absurd hnil hne
    · exact absurd hends (hlast t ht)
  · have hquiet := h.quietLines hneat hrow hplain [] (fun c hc => by cases hc) init rest rfl hrest hstart
    rwa [List.append_nil] at hquiet

variable (o : PrintOptions) {note : Option Position} {ts : List (Tree (Option Position))}

private theorem isHeadingText_markedHeading {depth : Nat} (hone : 1 ≤ depth) (hsix : depth ≤ 6)
    (hinline : ∀ u ∈ Tree.preorderList ts, u.kind.isInline = true) (hneat : ∀ u ∈ Tree.preorderList ts, u.Neat)
    (s : Scene) :
    Yields false (IsHeadingText o.closeAtx s.current depth ts) (markedHeading o s depth ts) := by
  refine (yields_markedHeading o hinline s depth).mono ?_
  rintro printed ⟨content, hwrites, rfl⟩
  have hnewline := hwrites.newline_iff hneat
  have hreads (h : ¬∃ u ∈ Tree.preorderList ts, u.content.HoldsNewline) :=
    readsAsHeading_atxText o.closeAtx hone hsix (mt hnewline.1 h)
  exact ⟨.inl ⟨content, rfl, hnewline, fun h => (hreads h).2⟩, fun h => (hreads h).1⟩

private theorem holdsNewline_mapList {β : Type} (f : α → β) (ts : List (Tree α)) :
    (∃ u ∈ Tree.preorderList (Tree.mapList f ts), u.content.HoldsNewline) ↔
      ∃ u ∈ Tree.preorderList ts, u.content.HoldsNewline := by
  simp [Tree.preorderList_mapList, Tree.content_map]

/-- A heading is printed with marks or underlined, and is read as it was if no link or image has a line feed in it. -/
private theorem isHeadingText_render {depth : Nat} (hone : 1 ≤ depth) (hsix : depth ≤ 6)
    (hcomposed : ∀ u ∈ (Tree.node note (.heading depth) ts).preorder, Tree.Composed u)
    (hneat : ∀ u ∈ (Tree.node note (.heading depth) ts).preorder, u.Neat) (s : Scene) :
    Yields false (IsHeadingText o.closeAtx s.current depth ts)
      ((Printer.standard o).render s (.ofTree (.node note (.heading depth) ts))) := by
  have hinline : ∀ u ∈ Tree.preorderList ts, u.kind.isInline = true := Tree.inline_below hcomposed (.inl rfl)
  have hbelow : ∀ u ∈ Tree.preorderList ts, u.Neat :=
    Tree.forall_mem_preorderList.2 (Tree.forall_mem_preorder.1 hneat).2
  obtain ⟨hrow, hlast⟩ := (hneat _ (.head _)).row (.inr (.inl rfl)) true
  have hmarked := isHeadingText_markedHeading o hone hsix hinline hbelow s
  rw [render_heading]
  split
  · rename_i hunderlines
    rw [underlinedHeading]
    refine yields_bind (yields_inlineContent o hinline false s) fun content hwrites => ?_
    split
    · exact hmarked
    · rename_i hshows
      have hne : ts ≠ [] := by
        rintro rfl
        cases hwrites
        exact hshows rfl
      simp only [underlines, Bool.and_eq_true, decide_eq_true_eq, Bool.not_eq_true'] at hunderlines
      have htwo : depth ≤ 2 := by exact_mod_cast hunderlines.1.1
      have hquiet (hplain : ¬∃ u ∈ Tree.preorderList ts, u.content.HoldsNewline) :
          ∀ line ∈ fields '\n' content, IsQuiet line :=
        quiet_of_writes hbelow hrow hlast (by simpa using hplain) hwrites hne
      have hgoesOn (hplain : ¬∃ u ∈ Tree.preorderList ts, u.content.HoldsNewline) :
          ∀ line ∈ fields '\n' content, ∀ (s : Setting) (l : Line), l.text = line → s.goesOn l = true := by
        rintro _ hline s l rfl
        exact (hquiet hplain _ hline).goesOn s
      refine yields_pure ⟨.inr ⟨content, rfl, htwo, hunderlines.2, hgoesOn⟩, fun hplain => ?_⟩
      exact readsAsHeading_setextText (by omega) (hquiet hplain)
  · exact hmarked

end MarkdownTree.Print

namespace MarkdownTree

open Print

/-- Wherever a heading of a scanned tree is printed, it has marks before it or is underlined: it has a line feed behind
marks only if a link or an image has one, it is not underlined directly below a paragraph, and unless there is such a
link or image its lines are read as a heading of its depth. -/
theorem scan_render_heading (o : ScanOptions) (q : PrintOptions) (path : Option String) (text : String) :
    ∃ tree, (Scan.scan o path text).tree = some tree ∧ ∀ t ∈ tree.preorder, ∀ depth, t.content = .heading depth →
      ∀ (s : Scene) (pen : Pen), pen.around.after.Known → pen.atx = false →
        ∃ printed pen', (Printer.standard q).render s (.ofTree (t.map fun _ => none)) pen = .ok (printed, pen') ∧
          IsHeadingText q.closeAtx s.current depth.toNat t.children printed := by
  obtain ⟨tree, htree, -, hgrammatical, hneat⟩ := scan_neat o path text
  refine ⟨tree, htree, fun t ht depth hdepth s pen hafter hatx => ?_⟩
  obtain ⟨note, content, children⟩ := t
  obtain rfl : content = .heading depth := hdepth
  obtain ⟨hone, hsix⟩ := (hgrammatical _ ht).depth depth rfl
  obtain ⟨n, rfl⟩ := Int.eq_ofNat_of_zero_le (show 0 ≤ depth by omega)
  -- The tree is printed without positions.
  let f : Position → Option Position := fun _ => none
  have hnodes : ∀ u ∈ ((Tree.node note (.heading n) children).map f).preorder, Tree.Composed u ∧ u.Neat := by
    rw [Tree.preorder_map, List.forall_mem_map]
    intro u hu
    have hmem := Tree.mem_preorder_trans ht hu
    exact ⟨((Tree.Thins.refl u).composed (hgrammatical u hmem)).map f, (hneat u hmem).map f⟩
  obtain ⟨printed, pen', hrun, -, -, -, hform, hreads⟩ := isHeadingText_render q (by omega) (by omega)
    (fun u hu => (hnodes u hu).1) (fun u hu => (hnodes u hu).2) s pen hafter hatx
  rw [holdsNewline_mapList] at hform hreads
  exact ⟨printed, pen', hrun, hform, hreads⟩

/-- A heading with a line feed in its text is underlined. -/
theorem scan_render_heading_lines :
    ∃ tree t printed pen', (Scan.scan {} none "a\nb\n===").tree = some tree ∧ t ∈ tree.preorder ∧
      (Printer.standard {}).render {} (.ofTree (t.map fun _ => none)) {} = .ok (printed, pen') ∧
      printed = "a\nb\n===".toList ∧ ReadsAsHeading 1 printed := by
  obtain ⟨tree, htree, hheadings⟩ := scan_render_heading {} {} none "a\nb\n==="
  have hexists : ∃ t ∈ tree.preorder, t.content = .heading 1 ∧
      (¬∃ u ∈ Tree.preorderList t.children, u.content.HoldsNewline) ∧
        ((Printer.standard {}).render {} (.ofTree (t.map fun _ => none)) {}).toOption.map (·.1) =
          some "a\nb\n===".toList := by
    cases (tree_scan {} none "a\nb\n===").symm.trans htree
    decide +kernel
  obtain ⟨t, ht, hcontent, hplain, htext⟩ := hexists
  obtain ⟨printed, pen', hrun, -, hreads⟩ := hheadings t ht 1 hcontent {} {} ⟨false, rfl⟩ rfl
  rw [hrun] at htext
  exact ⟨tree, t, printed, pen', htree, ht, hrun, Option.some.inj htext, hreads hplain⟩

/-- A heading with a line feed in the title of a link is printed with marks all the same, and is no heading of its link
when it is read again. -/
theorem scan_printTree_heading_title :
    ∃ tree again, (Scan.scan {} none "[a](b \"c\nd\")\n===").tree = some tree ∧
      tree.children.map (·.content) = [.heading 1] ∧
      printTree {} tree = .ok "# [a](b \"c\nd\")\n".toList ∧
      (Scan.scan {} none "# [a](b \"c\nd\")\n").tree = some again ∧
      again.children.map (·.kind) = [.heading, .paragraph] := by
  refine ⟨_, _, tree_scan {} none "[a](b \"c\nd\")\n===", ?_, ?_, tree_scan {} none "# [a](b \"c\nd\")\n", ?_⟩
  · decide +kernel
  · exact eq_ok_of_toOption (by decide +kernel)
  · decide +kernel

end MarkdownTree
