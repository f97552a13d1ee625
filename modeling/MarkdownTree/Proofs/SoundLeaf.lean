import MarkdownTree.Proofs.Neighbour
import MarkdownTree.Proofs.Sound

/-!
# Sound leaves

Paragraphs, headings, rules and code blocks that are sound are printed as blocks that stand in rows (`exists_paragraph`,
`exists_heading`, `exists_rule`, `exists_code`).
What stands before a block in its row shapes it: below a paragraph headings are not underlined, and rules are not
written with hyphens (`Before.Joins`).
-/

namespace MarkdownTree

open Text Scan Print

/-- A block may stand behind what was printed before it in a row without blank lines. -/
structure Tree.MayFollow (q : PrintOptions) (b : Before) (t : Tree Unit) : Prop where
  paragraph : b = .paragraph → t.kind ≠ .paragraph ∧
    (t.kind = .heading → t.children.any breaksLine = false ∧ survivesMarked q t.children = true) ∧
    ¬(q.bullet = .hyphen ∧ t.marks = 1)
  list : ∀ ordered mark, b = .list ordered mark → t.kind ≠ .paragraph ∧ t.isUnderlined q = false

namespace Print

/-- A pen between two blocks: no heading is being printed, and no delimiters are decided on. -/
structure Pen.Clean (pen : Pen) : Prop where
  known : pen.around.after.Known
  atx : pen.atx = false
  decided : pen.decided = fun _ => none

/-- A block ends what was printed before it in its row, and starts no front matter. -/
structure Before.Joins (b : Before) (site : Site) (d : Block) : Prop where
  paragraph : site.tight = true → b = .paragraph →
    d.Interrupts ∧ ∀ line ∈ d.lines.head?, underlineDepth? line = none
  list : site.tight = true → ∀ ordered mark, b = .list ordered mark → d.Interrupts
  marks : ∀ ordered mark start spread, b = .list ordered mark → d.tree.content = .list ordered start spread →
    d.mark ≠ mark
  front : site.kind = .root → b = .nothing → ∀ line ∈ d.lines.head?, opensFrontMatter line = false

/-- A text is the lines of a block that stands for a tree. -/
structure Shows (o : ScanOptions) (q : PrintOptions) (site : Site) (b : Before) (t : Tree Unit) (x : List Char)
    (d : Block) : Prop where
  tree : d.tree = t
  lines : fields '\n' x = d.lines
  stands : d.Stands o
  mark : ∀ ordered start spread, t.content = .list ordered start spread → d.mark = b.mark q ordered
  joins : b.Joins site d

theorem opensFrontMatter_eq_false {line : List Char} (h : isRule line = false) : opensFrontMatter line = false := by
  by_contra hopens
  rw [Bool.not_eq_false, opensFrontMatter, Bool.and_eq_true, List.isPrefixOf_iff_prefix] at hopens
  obtain ⟨⟨rest, rfl⟩, hrest⟩ := hopens
  have hgaps : rest.all (fun d => d == '-' || isGap d) = true := by
    refine List.all_eq_true.2 fun d hd => ?_
    rw [List.all_eq_true.1 hrest d hd, Bool.or_true]
  have hrule : isRule (['-', '-', '-'] ++ rest) = true := by
    simp [isRule, hgaps]
  rw [hrule] at h
  cases h

section

variable {o : ScanOptions} {q : PrintOptions} {site : Site} {b : Before} {mark : Char}

/-- A block that interrupts paragraphs and starts like no underline joins everything, unless it is a list. -/
theorem joins_of_interrupts {d : Block} (hinterrupts : d.Interrupts) (hkind : d.tree.kind ≠ .list)
    (hunder : ∀ line ∈ d.lines.head?, site.tight = true → b = .paragraph → underlineDepth? line = none)
    (hfront : ∀ line ∈ d.lines.head?, site.kind = .root → b = .nothing → opensFrontMatter line = false) :
    b.Joins site d where
  paragraph htight hb := ⟨hinterrupts, fun line hline => hunder line hline htight hb⟩
  list _ _ _ _ := hinterrupts
  marks _ _ _ _ _ hcontent := absurd (congrArg Content.kind hcontent) hkind
  front hroot hb line hline := hfront line hline hroot hb

/-- A block of quiet lines joins all but paragraphs and lists above it. -/
private theorem joins_of_quiet {d : Block} (hkind : d.tree.kind ≠ .list) (hquiet : ∀ line ∈ d.lines.head?, IsQuiet line)
    (hparagraph : site.tight = true → b ≠ .paragraph)
    (hlist : site.tight = true → ∀ ordered mark, b ≠ .list ordered mark) : b.Joins site d where
  paragraph htight hb := absurd hb (hparagraph htight)
  list htight ordered mark hb := absurd hb (hlist htight ordered mark)
  marks _ _ _ _ _ hcontent := absurd (congrArg Content.kind hcontent) hkind
  front _ _ line hline := opensFrontMatter_eq_false (hquiet line hline).rule

end

private theorem fields_join_codeLines {mark : Char} (hmark : mark = '\x60' ∨ mark = '~') {info : List Char}
    (hinfo : '\n' ∉ info) (value : List Char) :
    fields '\n' (join ['\n'] (codeLines mark info value)) = codeLines mark info value := by
  have hfence : '\n' ∉ fenceOf mark value := fun h => by
    have hblank := isBlank_of_fence hmark
    rw [← List.eq_of_mem_replicate h] at hblank
    cases hblank
  refine fields_join (List.cons_ne_nil _ _) (List.forall_mem_cons.2 ⟨?_, List.forall_mem_append.2 ⟨fun line hline => ?_,
    List.forall_mem_singleton.2 hfence⟩⟩)
  · rw [List.mem_append, not_or]
    exact ⟨hfence, hinfo⟩
  · exact newline_notMem_fields value line (mem_fields_of_valueLines hline)

/-! ### Blocks of inline content -/

variable (o : ScanOptions) (q : PrintOptions) {site : Site} {b : Before} {f : Frame}

section

variable {content : Content} {ts : List (Tree Unit)} (h : ∀ u ∈ (Tree.node () content ts).preorder, u.Arranged)
  (hsound : ∀ u ∈ (Tree.node () content ts).preorder, u.Sound q)
include h hsound

omit h in
private theorem plain_of_sound : ∀ u ∈ Tree.preorderList ts, ¬u.content.HoldsNewline := by
  have hbelow := (Tree.forall_mem_preorder.1 hsound).2
  rw [Tree.forall_mem_preorderList]
  intro t ht u hu
  have hu := hbelow t ht u hu
  obtain ⟨⟨⟩, content, children⟩ := u
  cases content with
  | link => exact hu
  | image => exact hu
  | _ => exact not_false

theorem exists_paragraph (hcontent : content = .paragraph)
    (hfollows : site.tight = true → Tree.MayFollow q b (.node () content ts)) (s : Scene) {pen : Pen}
    (hpen : pen.Clean) :
    ∃ x pen' d, (Printer.standard q).render (s.inside f) (printed (.node () content ts)) pen = .ok (x, pen') ∧
      pen'.Clean ∧ Shows o q site b (.node () content ts) x d := by
  subst hcontent
  have hnode := h _ (Tree.mem_preorder_self _)
  have hsurvives : survives q false ts = true := hsound _ (Tree.mem_preorder_self _)
  have hplain := plain_of_sound q hsound
  have hne : ts ≠ [] := hnode.legible.neat.nonempty (.inl rfl)
  obtain ⟨around, hafter, hrun⟩ := inlineContent_eq q (inline_unplaced h (.inl rfl)) (s.inside f) pen hpen.known
    hpen.decided
  have hatx : inlineText q pen.atx ts = inlineText q false ts := by rw [hpen.atx]
  have hquiet := quiet_inlineText q h (.inl rfl) hplain hne
  have hbox := (writes_inlineText q h (.inl rfl) false).taskBox?_eq_none
  obtain ⟨first, more, hlines⟩ := List.exists_cons_of_ne_nil (fields_ne_nil '\n' (inlineText q false ts))
  rw [hatx] at hrun
  refine ⟨_, _, ⟨.node () .paragraph ts, ' ', first :: more⟩, hrun, ⟨hafter, hpen.atx, hpen.decided⟩, rfl, hlines,
    ?_, ?_, ?_⟩
  · rw [hlines] at hquiet hbox
    refine stands_paragraph o ' ' hquiet (hbox first rfl) fun ls hls => ?_
    exact erase_readInline_lines q h (.inl rfl) hsurvives (hls.trans hlines.symm)
  · rintro ordered start spread ⟨⟩
  · rw [hlines] at hquiet
    refine joins_of_quiet (by simp [Tree.kind, Tree.content, Content.kind]) ?_ ?_ ?_
    · rintro _ ⟨⟩
      exact hquiet first (.head _)
    · exact fun htight hb => ((hfollows htight).paragraph hb).1 rfl
    · exact fun htight ordered mark hb => ((hfollows htight).list ordered mark hb).1 rfl

omit hsound in
/-- What is read shows if there is anything. -/
private theorem any_shows (hkind : content.kind = .paragraph ∨ content.kind = .heading) (hne : ts ≠ []) :
    ts.any Tree.shows = true := by
  obtain ⟨t, ts, rfl⟩ := List.exists_cons_of_ne_nil hne
  obtain ⟨hrow, -⟩ := (h _ (Tree.mem_preorder_self _)).legible.neat.row (hkind.imp_right .inl) true
  have hopens := hrow.first rfl t.content rfl
  have ht := ((Tree.forall_mem_preorder.1 h).2 t (.head _) t (Tree.mem_preorder_self t)).admits
  rw [List.any_cons, Bool.or_eq_true]
  left
  obtain ⟨note, content, children⟩ := t
  cases content with
  | text value =>
    obtain ⟨c, hc⟩ : ∃ c, c ∈ value.toList.head? := by
      have hvalue : value.toList ≠ [] := by simpa using ht.2
      exact ⟨_, List.head?_eq_some_head hvalue⟩
    exact List.any_eq_true.2 ⟨c, List.mem_of_head? hc, by simp [hopens c hc]⟩
  | _ => rfl

omit hsound in
/-- A heading with marks before it, as it is printed and read. -/
private theorem exists_markedHeading {depth : Nat} (hcontent : content = .heading depth)
    (hplain : ∀ u ∈ Tree.preorderList ts, ¬u.content.HoldsNewline)
    (hbreaks : ts.any Tree.breaksLine = false) (hsurvives : survivesMarked q ts = true) (s : Scene) {pen : Pen}
    (hpen : pen.Clean) :
    ∃ x pen' d, markedHeading q (s.inside f) depth (unplaced ts) pen = .ok (x, pen') ∧
      pen'.Clean ∧ Shows o q site b (.node () content ts) x d := by
  subst hcontent
  have hnode := h _ (Tree.mem_preorder_self _)
  have hdepth : Content.Phrasing (ts.map Tree.content) ∧ (1 : Int) ≤ depth ∧ (depth : Int) ≤ 6 := hnode.admits
  have hone : 1 ≤ depth := by exact_mod_cast hdepth.2.1
  have hsix : depth ≤ 6 := by exact_mod_cast hdepth.2.2
  obtain ⟨around, hafter, hrun⟩ := inlineContent_eq q (inline_unplaced h (.inr rfl)) (s.inside f)
    { pen with atx := true } hpen.known hpen.decided
  obtain ⟨more, hmore, hgap, hnewline⟩ := atxText_eq_append q.closeAtx depth (inlineText q true ts)
  have hline : '\n' ∉ List.replicate depth '#' ++ more := by
    rw [List.mem_append, hnewline, not_or]
    exact ⟨fun hmem => absurd (List.eq_of_mem_replicate hmem) (by decide), newline_notMem_inlineText q h (.inr rfl)
      hplain⟩
  have hread := erase_readInline_marked q h (.inr rfl) hplain hbreaks hsurvives (Nat.ne_of_gt hone) hmore
  obtain ⟨n, rfl⟩ := Nat.exists_eq_add_of_le' hone
  have hjoins : b.Joins site ⟨.node () (.heading (n + 1 : Nat)) ts, ' ', [List.replicate (n + 1) '#' ++ more]⟩ := by
    refine joins_of_interrupts (interrupts_marked ' ' hone hsix hgap _)
      (by simp [Tree.kind, Tree.content, Content.kind]) ?_ ?_
    · rintro _ ⟨⟩ - -
      rfl
    · rintro _ ⟨⟩ - -
      rfl
  refine ⟨_, { pen with around, atx := false }, _, (run_bind () _ rfl).trans ((run_bind _ _ hrun).trans rfl),
    ⟨hafter, rfl, hpen.decided⟩, rfl, ?_,
    stands_marked o ' ' hone hsix hgap hread, ?_, hjoins⟩
  · rw [Int.toNat_natCast, hmore, fields_of_notMem hline]
  · rintro ordered start spread ⟨⟩

omit hsound in
private theorem trim_inlineText (hkind : content.kind = .paragraph ∨ content.kind = .heading) (hne : ts ≠ []) :
    (trim (inlineText q false ts)).isEmpty = false := by
  have hblank := (writes_inlineText q h hkind false).all_isBlank
  rw [any_shows h hkind hne] at hblank
  exact List.isEmpty_eq_false_iff.2 (trim_ne_nil hblank)

/-- An underlined heading, as it is printed and read. -/
private theorem shows_setextText {depth : Nat} (hcontent : content = .heading depth) (hdepth : depth = 1 ∨ depth = 2)
    (hne : ts ≠ []) (hsurvives : survives q false ts = true) (hparagraph : site.tight = true → b ≠ .paragraph)
    (hlist : site.tight = true → ∀ ordered mark, b ≠ .list ordered mark) :
    ∃ d, Shows o q site b (.node () content ts) (setextText (.int depth) (inlineText q false ts)) d := by
  subst hcontent
  have hquiet := quiet_inlineText q h (.inr rfl) (plain_of_sound q hsound) hne
  have hbox := (writes_inlineText q h (.inr rfl) false).taskBox?_eq_none
  obtain ⟨first, more, hlines⟩ := List.exists_cons_of_ne_nil (fields_ne_nil '\n' (inlineText q false ts))
  rw [hlines] at hquiet hbox
  have hfields : fields '\n' (setextText (.int depth) (inlineText q false ts)) =
      first :: (more ++ [List.replicate 3 (if depth = 1 then '=' else '-')]) := by
    rw [← List.cons_append, ← hlines]
    rcases hdepth with rfl | rfl <;> exact fields_concat _ (by decide)
  refine ⟨⟨_, ' ', _⟩, rfl, hfields, stands_underlined o ' ' hdepth hquiet (hbox first rfl) fun ls hls => ?_, ?_, ?_⟩
  · exact erase_readInline_lines q h (.inr rfl) hsurvives (hls.trans hlines.symm)
  · rintro ordered start spread ⟨⟩
  · refine joins_of_quiet (by simp [Tree.kind, Tree.content, Content.kind]) ?_ hparagraph hlist
    rintro _ ⟨⟩
    exact hquiet first (.head _)

/-- A heading that is underlined if there is something to underline, as it is printed and read. -/
private theorem exists_underlinedHeading {depth : Nat} (hcontent : content = .heading depth) (htwo : depth ≤ 2)
    (hsurvives : if ts.isEmpty then survivesMarked q ts = true else survives q false ts = true)
    (hparagraph : site.tight = true → b ≠ .paragraph)
    (hlist : site.tight = true → ts.isEmpty = false → ∀ ordered mark, b ≠ .list ordered mark) (s : Scene) {pen : Pen}
    (hpen : pen.Clean) :
    ∃ x pen' d, underlinedHeading q (s.inside f) depth (unplaced ts) pen = .ok (x, pen') ∧
      pen'.Clean ∧ Shows o q site b (.node () content ts) x d := by
  subst hcontent
  have hdepth : Content.Phrasing (ts.map Tree.content) ∧ (1 : Int) ≤ depth ∧ (depth : Int) ≤ 6 :=
    (h _ (Tree.mem_preorder_self _)).admits
  have hone : 1 ≤ depth := by exact_mod_cast hdepth.2.1
  obtain ⟨around, hafter, hrun⟩ := inlineContent_eq q (inline_unplaced h (.inr rfl)) (s.inside f) pen
    hpen.known hpen.decided
  have hclean : Pen.Clean { pen with around } := ⟨hafter, hpen.atx, hpen.decided⟩
  rw [hpen.atx] at hrun hclean
  rw [run_underlinedHeading q hrun]
  cases ts with
  | nil => exact exists_markedHeading o q h rfl (plain_of_sound q hsound) rfl hsurvives s hclean
  | cons t ts =>
    obtain ⟨d, hd⟩ := shows_setextText o q h hsound rfl (by omega) (List.cons_ne_nil t ts) hsurvives hparagraph
      fun htight => hlist htight rfl
    rw [trim_inlineText q h (.inr rfl) (List.cons_ne_nil t ts), if_neg Bool.false_ne_true]
    exact ⟨_, _, d, rfl, hclean, hd⟩

theorem exists_heading {depth : Nat} (hcontent : content = .heading depth) (hsite : site.Fits f) {pen : Pen}
    (hbefore : b.Fits f pen.symbol?) (hfollows : site.tight = true → Tree.MayFollow q b (.node () content ts))
    (s : Scene) (hpen : pen.Clean) :
    ∃ x pen' d, (Printer.standard q).render (s.inside f) (printed (.node () content ts)) pen = .ok (x, pen') ∧
      pen'.Clean ∧ Shows o q site b (.node () content ts) x d := by
  subst hcontent
  have hplain := plain_of_sound q hsound
  have hbreaks : (unplaced ts).any Tree.breaksLine = ts.any Tree.breaksLine := by
    simp [unplaced, Tree.mapList_eq_map, List.any_map, Function.comp_def, Tree.breaksLine_map]
  have hunderlines : underlines q (s.inside f).current depth (unplaced ts) =
      (Decidable.decide (depth ≤ 2) && (q.setext || ts.any Tree.breaksLine) && !(site.tight && b == .paragraph)) := by
    rw [underlines, hbreaks, show (s.inside f).current = some f from rfl, Option.any_some, belowParagraph_eq hsite
      hbefore]
    simp only [Nat.cast_le_ofNat]
  have hsound' : if Tree.isUnderlined q (.node () (.heading depth) ts) then survives q false ts = true else
      survivesMarked q ts = true := hsound _ (Tree.mem_preorder_self _)
  have hisUnderlined : Tree.isUnderlined q (.node () (.heading depth) ts) =
      (Decidable.decide (depth ≤ 2) && (q.setext || ts.any Tree.breaksLine) && !ts.isEmpty) := by
    simp [Tree.isUnderlined, Tree.content, Tree.children]
  have hrender : (Printer.standard q).render (s.inside f) (printed (.node () (.heading depth) ts)) =
      (Printer.standard q).render (s.inside f) (.ofTree (.node none (.heading depth) (unplaced ts))) := rfl
  rw [hrender, render_heading, hunderlines]
  rw [hisUnderlined] at hsound'
  generalize hwants : (Decidable.decide (depth ≤ 2) && (q.setext || ts.any Tree.breaksLine)) = wants at *
  by_cases hbelow : (site.tight && b == .paragraph) = true
  · -- A heading below a paragraph has marks in any case.
    rw [hbelow, Bool.not_true, Bool.and_false, if_neg Bool.false_ne_true]
    rw [Bool.and_eq_true, beq_iff_eq] at hbelow
    obtain ⟨hone, hsurvives⟩ := ((hfollows hbelow.1).paragraph hbelow.2).2.1 rfl
    exact exists_markedHeading o q h rfl hplain hone hsurvives s hpen
  · rw [Bool.eq_false_iff.2 hbelow, Bool.not_false, Bool.and_true]
    cases wants with
    | false =>
      have hone : ts.any Tree.breaksLine = false := by
        by_contra hmore
        rw [Bool.not_eq_false] at hmore
        have htwo : depth ≤ 2 := by exact_mod_cast (h _ (Tree.mem_preorder_self _)).scannable hmore
        simp [htwo, hmore] at hwants
      rw [if_neg Bool.false_ne_true]
      exact exists_markedHeading o q h rfl hplain hone hsound' s hpen
    | true =>
      rw [Bool.and_eq_true, decide_eq_true_eq] at hwants
      rw [if_pos rfl]
      refine exists_underlinedHeading o q h hsound rfl hwants.1 ?_ ?_ ?_ s hpen
      · cases ts <;> exact hsound'
      · rintro htight rfl
        exact hbelow (by rw [htight]; rfl)
      · intro htight hne ordered mark hb
        have hmarked := ((hfollows htight).list ordered mark hb).2
        rw [hisUnderlined, hne] at hmarked
        cases hmarked

omit hsound in
theorem exists_rule (hcontent : content = .thematicBreak) (hsite : site.Fits f) {pen : Pen}
    (hbefore : b.Fits f pen.symbol?) (s : Scene) (hpen : pen.Clean) :
    ∃ x pen' d, (Printer.standard q).render (s.inside f) (printed (.node () content ts)) pen = .ok (x, pen') ∧
      pen'.Clean ∧ Shows o q site b (.node () content ts) x d := by
  subst hcontent
  obtain rfl : ts = [] := by
    have hadmits := (h _ (Tree.mem_preorder_self _)).admits.eq_nil rfl
    exact List.map_eq_nil_iff.1 hadmits
  have hmark := ruleMark_eq q hsite hbefore
  obtain ⟨r, hr⟩ := exists_ruleMark q (some f)
  have hrender : (Printer.standard q).render (s.inside f) (printed (.node () .thematicBreak [])) =
      pure (List.replicate 3 r.char) := by
    rw [← hr]
    exact render_thematicBreak q (s.inside f) none []
  have hhyphen (hplace : (site.tight && b == .paragraph) = true ∨ (site.kind == .root && b == .nothing) = true) :
      r ≠ .hyphen := by
    rintro rfl
    rw [hr] at hmark
    split at hmark
    · cases hmark
    · rename_i hcond
      rw [← hmark] at hcond
      rcases hplace with hplace | hplace
      · simp [RuleMark.char, hplace] at hcond
      · simp [RuleMark.char, Bool.and_assoc, hplace] at hcond
  have hlines : fields '\n' (List.replicate 3 r.char) = [List.replicate 3 r.char] :=
    fields_of_notMem (by cases r <;> decide)
  refine ⟨_, pen, _, by rw [hrender]; rfl, hpen, rfl, hlines, stands_rule o ' ' r, by rintro ordered start spread ⟨⟩,
    joins_of_interrupts (interrupts_rule ' ' _ r) (by simp [Tree.kind, Tree.content, Content.kind]) ?_ ?_⟩
  · rintro _ ⟨⟩ htight hb
    have hne := hhyphen (.inl (by simp [htight, hb]))
    cases r with
    | hyphen => exact absurd rfl hne
    | star | underscore => rfl
  · rintro _ ⟨⟩ hroot hb
    have hne := hhyphen (.inr (by simp [hroot, hb]))
    cases r with
    | hyphen => exact absurd rfl hne
    | star | underscore => rfl

/-- The lines of code between fences stand, whatever is before them. -/
theorem exists_code {value : String} {lang details : Option String} (hcontent : content = .codeBlock value lang details)
    (s : Scene) {pen : Pen} (hpen : pen.Clean) :
    ∃ x pen' d, (Printer.standard q).render (s.inside f) (printed (.node () content ts)) pen = .ok (x, pen') ∧
      pen'.Clean ∧ Shows o q site b (.node () content ts) x d := by
  subst hcontent
  obtain rfl : ts = [] := by
    have hadmits := (h _ (Tree.mem_preorder_self _)).admits.eq_nil rfl
    exact List.map_eq_nil_iff.1 hadmits
  obtain ⟨hwords, hnewline⟩ := (h _ (Tree.mem_preorder_self _)).scannable
  have hends : endsFence q lang details = true := hsound _ (Tree.mem_preorder_self _)
  rw [endsFence, bne_iff_ne] at hends
  obtain ⟨hmark, hopen⟩ := fenceMark_cases q.fence (infoOf lang details)
  have hrender := render_codeBlock q (s.inside f) none [] (codeBlockText_eq hwords q.fence value)
  generalize fenceMark q.fence (infoOf lang details) = mark at *
  have htext (cs : Option String) : optionText (cs.map String.toList) = cs := by
    cases cs <;> simp [optionText]
  have hlines := fields_join_codeLines hmark hnewline value.toList
  have hstands : Block.Stands o ⟨.node () (.codeBlock (String.ofList value.toList)
      (optionText (lang.map String.toList)) (optionText (details.map String.toList))) [], ' ',
      codeLines mark (infoOf lang details) value.toList⟩ := stands_code o ' ' hmark hopen hwords rfl hends
  rw [htext, htext, String.ofList_toList] at hstands
  obtain ⟨n, hn⟩ := exists_fenceOf mark value.toList
  refine ⟨_, pen, _, by exact congrFun hrender pen, hpen, rfl, hlines, ?_, by rintro ordered start spread ⟨⟩,
    joins_of_interrupts (interrupts_code ' ' hmark hopen _) (by simp [Tree.kind, Tree.content, Content.kind]) ?_ ?_⟩
  · exact hstands
  · rw [codeLines, hn]
    rintro _ ⟨⟩ - -
    rcases hmark with rfl | rfl <;> rfl
  · rw [codeLines, hn]
    rintro _ ⟨⟩ - -
    rcases hmark with rfl | rfl <;> rfl

end

end Print

end MarkdownTree
