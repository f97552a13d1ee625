import MarkdownTree.Proofs.HeadingPrint
import MarkdownTree.Proofs.Neighbour
import MarkdownTree.Proofs.RoundTrip

/-!
# Printing without silent paragraphs

A tree is printed side by side with the tree without its paragraphs that have no children.  Both printers come to the
same blocks with the same pen (`Twins`), until one of the blocks is printed otherwise.  What is printed before that
block is common, and the block itself then starts, or goes on, with another character (`pairs_render`), so that the
texts stay apart whatever comes later (`printTree_withoutSilent_iff`).
-/

namespace MarkdownTree.Print

open Text

variable (o : PrintOptions)

/-! ### Two runs side by side -/

/-- Both runs succeed, with results that are related in one way if they differ, and else with the same result and the
same pen. -/
def Pairs {α : Type} (differ : Bool) (R : α → α → Prop) (x y : Except Fault (α × Pen)) : Prop :=
  ∃ a p b q, x = .ok (a, p) ∧ y = .ok (b, q) ∧ (differ = true → R a b) ∧ (differ = false → a = b ∧ p = q)

/-- Rows of texts that diverge after a common beginning. -/
def RowsDiverge (xs ys : List (List Char)) : Prop :=
  ∃ before x y after after', xs = before ++ x :: after ∧ ys = before ++ y :: after' ∧ Diverge x y

section

variable {α β : Type} {differ : Bool}

private theorem pairs_same {R : α → α → Prop} {x : Except Fault (α × Pen)} {a : α} {p : Pen} (h : x = .ok (a, p)) :
    Pairs false R x x :=
  ⟨a, p, a, p, h, h, by simp, fun _ => ⟨rfl, rfl⟩⟩

private theorem pairs_map {R : α → α → Prop} {R' : β → β → Prop} {x y : Printing (Except Fault) α} {pen : Pen}
    (g : α → β)
    (h : Pairs differ R (x pen) (y pen)) (hg : ∀ a b, R a b → R' (g a) (g b)) :
    Pairs differ R' ((do return g (← x)) pen) ((do return g (← y)) pen) := by
  obtain ⟨a, p, b, q, hx, hy, hdiffer, hsame⟩ := h
  refine ⟨g a, p, g b, q, run_bind a p hx, run_bind b q hy, fun hd => hg a b (hdiffer hd), fun hd => ?_⟩
  obtain ⟨rfl, rfl⟩ := hsame hd
  exact ⟨rfl, rfl⟩

private theorem pairs_enclosed {R : α → α → Prop} {x y : Printing (Except Fault) α} {pen : Pen}
    (h : Pairs differ R (x { pen with symbols := none :: pen.symbols }) (y { pen with symbols := none :: pen.symbols })) :
    Pairs differ R (Printer.enclosed x pen) (Printer.enclosed y pen) := by
  obtain ⟨a, p, b, q, hx, hy, hdiffer, hsame⟩ := h
  refine ⟨a, { p with symbols := p.symbols.tail }, b, { q with symbols := q.symbols.tail },
    (run_bind () _ rfl).trans (run_bind a p hx), (run_bind () _ rfl).trans (run_bind b q hy), hdiffer, fun hd => ?_⟩
  obtain ⟨rfl, rfl⟩ := hsame hd
  exact ⟨rfl, rfl⟩

end

private theorem RowsDiverge.join {xs ys : List (List Char)} (h : RowsDiverge xs ys) (separator : List Char) :
    Diverge (join separator xs) (join separator ys) := by
  obtain ⟨before, x, y, after, after', rfl, rfl, hxy⟩ := h
  exact hxy.join separator before after after'

private theorem RowsDiverge.cons {xs ys : List (List Char)} (h : RowsDiverge xs ys) (z : List Char) :
    RowsDiverge (z :: xs) (z :: ys) := by
  obtain ⟨before, x, y, after, after', rfl, rfl, hxy⟩ := h
  exact ⟨z :: before, x, y, after, after', rfl, rfl, hxy⟩

mutual

private theorem emphasisCount_withoutSilent : ∀ t : Tree (Option Position),
    emphasisCount (.ofTree t.withoutSilent) = emphasisCount (.ofTree t)
  | .node note content children => by
    rw [Tree.withoutSilent, Draft.ofTree, Draft.ofTree, emphasisCount, emphasisCount,
      emphasisCountList_withoutSilent children]

private theorem emphasisCountList_withoutSilent : ∀ ts : List (Tree (Option Position)),
    emphasisCountList (Draft.ofTrees (Tree.withoutSilentList ts)) = emphasisCountList (Draft.ofTrees ts)
  | [] => rfl
  | t :: ts => by
    rw [Tree.withoutSilentList, Draft.ofTrees, emphasisCountList, ← emphasisCountList_withoutSilent ts]
    split
    · rename_i hsilent
      obtain ⟨note, content, children⟩ := t
      obtain ⟨rfl, rfl⟩ := Tree.isSilent_iff.1 hsilent
      exact (Nat.zero_add _).symm
    · rw [Draft.ofTrees, emphasisCountList, emphasisCount_withoutSilent t]

end

/-- The two frames of a container differ in what stands before the next block, if a paragraph without children stands
there. -/
structure Twins (site : Site) (b : Before) (silence : Bool) (f f' : Frame) (last : Option Char) : Prop where
  left : site.Fits f
  right : site.Fits f'
  seen : (if silence then .paragraph else b : Before).Fits f last
  told : b.Fits f' last

variable {site : Site} {b : Before} {silence : Bool} {f f' : Frame} {s s' : Scene}

private theorem minds_of_same_form : ∀ silence below tight may shows : Bool,
    (may && !(tight && (silence || below))) = (may && !(tight && below)) →
      (silence && (tight && !below && may && shows)) = false := by
  decide

private theorem forms_differ : ∀ silence below tight may : Bool,
    (may && !(tight && (silence || below))) ≠ (may && !(tight && below)) →
      silence = true ∧ below = false ∧ may = true ∧ tight = true := by
  decide

/-- A heading with marks and one with a line under it are different if they show something; else both have marks. -/
private theorem pairs_forms {note : Option Position} {depth : Int} {ts : List (Tree (Option Position))}
    (ht : ∀ u ∈ (Tree.node note (.heading depth) ts).preorder, Tree.Composed u) (s s' : Scene) {pen : Pen}
    (hafter : pen.around.after.Known) (hatx : pen.atx = false) :
    Pairs (ts.any Tree.shows) Diverge (markedHeading o s depth ts pen) (underlinedHeading o s' depth ts pen) := by
  have hinline : ∀ u ∈ Tree.preorderList ts, u.kind.isInline = true := Tree.inline_below ht (.inl rfl)
  obtain ⟨x, pen', hrun, -, -, -, hwrites⟩ := yields_inlineContent o hinline false s' pen hafter hatx
  obtain ⟨y, pen'', hmarked, -, -, -, y', -, rfl⟩ := yields_markedHeading o hinline s depth pen hafter hatx
  have hlined := run_underlinedHeading o hrun depth
  have hblank := hwrites.all_isBlank
  cases hshows : ts.any Tree.shows with
  | true =>
    rw [hshows] at hblank
    rw [if_neg (by simpa using trim_ne_nil hblank)] at hlined
    refine ⟨_, pen'', _, pen', hmarked, hlined, fun _ => ?_, fun hsame => by cases hsame⟩
    -- The one starts with a number sign, and the other does not.
    obtain ⟨c, cs, rfl⟩ := List.exists_cons_of_ne_nil (show x ≠ [] by rintro rfl; cases hblank)
    have hc : '#' ≠ c := fun hc => hwrites.head?_ne (congrArg some hc.symm)
    have hdepth : depth.toNat ≠ 0 := by
      have hone := (ht _ (.head _)).depth depth rfl
      omega
    obtain ⟨more, hmore⟩ := exists_atxText o.closeAtx y' hdepth
    rw [hmore]
    exact diverge_cons hc _ _
  | false =>
    rw [hshows] at hblank
    have htexts : ∀ t ∈ ts, t.kind = .text ∧ t.children = [] := by
      intro t hmem
      have hkind := kind_of_not_shows (Bool.eq_false_iff.2 (List.any_eq_false.1 hshows t hmem))
      refine ⟨hkind, (ht t ?_).text hkind⟩
      rw [Tree.preorder]
      exact .tail _ (Tree.mem_preorderList.2 ⟨t, hmem, Tree.mem_preorder_self t⟩)
    rw [if_pos (by simp [trim_eq_nil hblank]), markedHeading_texts o htexts s s' depth hatx hrun] at hlined
    rw [hlined]
    exact pairs_same hmarked

private theorem pairs_heading {pen : Pen} (h : Twins site b silence f f' pen.symbol?) (hrank : s.rank = s'.rank)
    (hafter : pen.around.after.Known) (hatx : pen.atx = false) {note : Option Position} {depth : Int}
    {ts : List (Tree (Option Position))} (ht : ∀ u ∈ (Tree.node note (.heading depth) ts).preorder, Tree.Composed u) :
    Pairs (silence && minds o site b (.node note (.heading depth) ts)) Diverge
      ((Printer.standard o).render (s.inside f) (.ofTree (.node note (.heading depth) ts)) pen)
      ((Printer.standard o).render (s'.inside f') (.ofTree (.node note (.heading depth) ts)) pen) := by
  have hinline : ∀ u ∈ Tree.preorderList ts, u.kind.isInline = true := Tree.inline_below ht (.inl rfl)
  have hrank' : (s.inside f).rank = (s'.inside f').rank := hrank
  obtain ⟨may, hmay⟩ : ∃ may, may = (Decidable.decide (depth ≤ 2) && (o.setext || ts.any Tree.breaksLine)) := ⟨_, rfl⟩
  have hunder : underlines o (some f) depth ts = (may && !(site.tight && (silence || b == .paragraph))) := by
    rw [underlines, Option.any_some, belowParagraph_eq h.left h.seen, hmay]
    cases silence <;> rfl
  have hunder' : underlines o (some f') depth ts = (may && !(site.tight && b == .paragraph)) := by
    rw [underlines, Option.any_some, belowParagraph_eq h.right h.told, hmay]
  have hminds : minds o site b (.node note (.heading depth) ts) =
      (site.tight && b != .paragraph && may && ts.any Tree.shows) := by
    have hitem : (site.kind == .listItem && site.tight) = site.tight := by
      cases htight : site.tight with
      | false => rw [Bool.and_false]
      | true => rw [h.left.item htight]; rfl
    show (site.kind == .listItem && site.tight && b != .paragraph && Decidable.decide (depth ≤ 2) &&
      (o.setext || ts.any Tree.breaksLine) && ts.any Tree.shows) = _
    rw [hitem, hmay]
    simp only [Bool.and_assoc]
  have hscene : (s.inside f).current = some f := rfl
  have hscene' : (s'.inside f').current = some f' := rfl
  by_cases hforms : underlines o (some f) depth ts = underlines o (some f') depth ts
  · -- Both headings have the same form.
    have hdiffer : (silence && minds o site b (.node note (.heading depth) ts)) = false := by
      rw [hunder, hunder'] at hforms
      rw [hminds, bne]
      exact minds_of_same_form _ _ _ _ _ hforms
    obtain ⟨x, pen', hrun, -⟩ := exists_render o _ ht (s.inside f) pen hafter hatx
    rw [hdiffer]
    rw [render_heading, hscene, hforms, underlinedHeading_congr o hinline hrank', markedHeading_congr o hinline hrank',
      ← hscene', ← render_heading] at hrun ⊢
    exact pairs_same hrun
  · -- Below the paragraph that is left out the heading has marks, and without it a line under it.
    obtain ⟨rfl, hparagraph, hmay', htight⟩ :
        silence = true ∧ (b == .paragraph) = false ∧ may = true ∧ site.tight = true := by
      rw [hunder, hunder'] at hforms
      exact forms_differ _ _ _ _ hforms
    have hmarked : underlines o (some f) depth ts = false := by
      rw [hunder, htight]
      simp
    have hlined : underlines o (some f') depth ts = true := by
      rw [hunder', hparagraph, hmay', Bool.and_false]
      rfl
    have hdiffer : (true && minds o site b (.node note (.heading depth) ts)) = ts.any Tree.shows := by
      rw [hminds, bne, hparagraph, hmay', htight]
      simp
    rw [render_heading, render_heading, hscene, hscene', hmarked, hlined, if_neg Bool.false_ne_true, if_pos rfl, hdiffer]
    exact pairs_forms o ht _ _ hafter hatx

/-! ### Blocks side by side -/

private theorem isBlank_mark (b : Before) (ordered : Bool) : isBlank (b.mark o ordered) = false := by
  have hbullet : isBlank o.bullet.char = false := by cases o.bullet <;> decide
  have hnumber : isBlank o.numberMark.char = false := by cases o.numberMark <;> decide
  have hmark : isBlank (markOf o ordered) = false := by cases ordered <;> assumption
  have hother : isBlank (otherMark o ordered) = false := by
    unfold otherMark
    split <;> split <;> decide
  rw [Before.mark]
  split <;> assumption

private theorem pairs_container {content : Content} {g : Frame} {wrap : List Char → List Char}
    (h : container? (Printer.markerFor o s.current) content = some (g, wrap))
    (h' : container? (Printer.markerFor o s'.current) content = some (g, wrap))
    (hwrap : ∀ x y, Diverge x y → Diverge (wrap x) (wrap y)) {note : Option Position} {ts ts' : List (Tree (Option Position))}
    {differ : Bool} {pen : Pen}
    (hrows : Pairs differ RowsDiverge
      ((Printer.standard o).renderBlocks s g (Draft.ofTrees ts) { pen with symbols := none :: pen.symbols })
      ((Printer.standard o).renderBlocks s' g (Draft.ofTrees ts') { pen with symbols := none :: pen.symbols })) :
    Pairs differ Diverge ((Printer.standard o).render s (.ofTree (.node note content ts)) pen)
      ((Printer.standard o).render s' (.ofTree (.node note content ts')) pen) := by
  rw [render_container o s note ts h, render_container o s' note ts' h']
  exact pairs_map _ (pairs_enclosed hrows) fun xs ys hxy => hwrap _ _ (hxy.join g.separator)

/-- Frames of a container in which nothing has been printed yet. -/
private theorem twins_nothing {g : Frame} (hsite : site.Fits g) (hprevious : g.previous = none) (last : Option Char) :
    Twins site .nothing false g g last :=
  ⟨hsite, hsite, fits_nothing hprevious, fits_nothing hprevious⟩

private theorem withoutSilentList_item {t : Tree (Option Position)} (ht : t.kind = .listItem)
    (ts : List (Tree (Option Position))) :
    Tree.withoutSilentList (t :: ts) = t.withoutSilent :: Tree.withoutSilentList ts := by
  have hsilent : t.isSilent = false := by
    refine Bool.eq_false_iff.2 fun hsilent => ?_
    rw [Tree.kind, (Tree.isSilent_iff.1 hsilent).1] at ht
    cases ht
  rw [Tree.withoutSilentList, hsilent]
  rfl

/-- The first text of a row and the others: where the first diverges it is not empty, and so not left out. -/
private theorem pairs_cons (add : List Char → List (List Char) → List (List Char))
    (hadd : ∀ x xs, x ≠ [] → add x xs = x :: xs)
    (hkeep : ∀ x, (∀ xs, add x xs = x :: xs) ∨ ∀ xs, add x xs = xs) {x x' : Printing (Except Fault) (List Char)}
    {r r' : Printing (Except Fault) (List (List Char))} {pen : Pen} {differ differ' : Bool} (hafter : pen.around.after.Known)
    (hx : Runs x) (hx' : Runs x') (hr : Runs r) (hr' : Runs r') (h : Pairs differ Diverge (x pen) (x' pen))
    (hrest : differ = false → ∀ a p, x pen = .ok (a, p) → Pairs differ' RowsDiverge (r p) (r' p)) :
    Pairs (differ || differ') RowsDiverge ((do let a ← x; let as ← r; return add a as) pen)
      ((do let a ← x'; let as ← r'; return add a as) pen) := by
  obtain ⟨a, p, a', p', hrun, hrun', hdiffer, hsame⟩ := h
  cases differ with
  | true =>
    have hap := hdiffer rfl
    obtain ⟨b, q, hb, hknown⟩ := hx pen hafter
    obtain ⟨b', q', hb', hknown'⟩ := hx' pen hafter
    cases hrun.symm.trans hb
    cases hrun'.symm.trans hb'
    obtain ⟨as, p₁, has, -⟩ := hr p hknown
    obtain ⟨as', p₁', has', -⟩ := hr' p' hknown'
    refine ⟨add a as, p₁, add a' as', p₁', (run_bind a p hrun).trans (run_bind as p₁ has),
      (run_bind a' p' hrun').trans (run_bind as' p₁' has'), fun _ => ?_, fun hfalse => by cases hfalse⟩
    rw [hadd _ _ hap.ne_nil, hadd _ _ hap.symm.ne_nil]
    exact ⟨[], a, a', as, as', rfl, rfl, hap⟩
  | false =>
    obtain ⟨rfl, rfl⟩ := hsame rfl
    obtain ⟨as, p₁, as', p₁', has, has', hdiffer', hsame'⟩ := hrest rfl a p hrun
    refine ⟨add a as, p₁, add a as', p₁', (run_bind a p hrun).trans (run_bind as p₁ has),
      (run_bind a p hrun').trans (run_bind as' p₁' has'), fun hd => ?_, fun hd => ?_⟩
    · have hrows := hdiffer' hd
      rcases hkeep a with ha | ha
      · rw [ha, ha]
        exact hrows.cons a
      · rwa [ha, ha]
    · obtain ⟨rfl, rfl⟩ := hsame' hd
      exact ⟨rfl, rfl⟩

/-- A paragraph without children stands between what is before it and the next block in one of the frames. -/
private theorem Twins.skip {last : Option Char} (h : Twins site b silence f f' last) {t : Tree (Option Position)}
    (ht : t.isSilent = true) : Twins site b true { f with previous := some (.ofTree t) } f' last := by
  have hafter : Before.nothing.after {} t = .paragraph := by
    rw [Before.after, (Tree.isSilent_iff.1 ht).1]
  refine ⟨h.left.after _, h.right, ?_, h.told⟩
  rw [if_pos rfl, ← hafter]
  refine fits_after {} t rfl fun ordered start spread hcontent => ?_
  rw [(Tree.isSilent_iff.1 ht).1] at hcontent
  cases hcontent

/-- Behind a block that is printed alike, nothing is between it and the next one in both frames. -/
private theorem twins_after {pen pen' : Pen} (h : Twins site b silence f f' pen.symbol?) (t : Tree (Option Position))
    (hsame : (silence && minds o site b t) = false) (hsymbols : pen.symbols ≠ [])
    (hafter : pen'.symbols = symbolsAfter o (s.inside f) t pen) :
    Twins site (b.after o t) false { f with previous := some (.ofTree t) }
      { f' with previous := some (.ofTree t.withoutSilent) } pen'.symbol? := by
  have hlast : ∀ ordered start spread, t.content = .list ordered start spread → pen'.symbol? = some (b.mark o ordered) := by
    intro ordered start spread hcontent
    obtain ⟨note, content, children⟩ := t
    obtain rfl : content = .list ordered start spread := hcontent
    rw [symbol?_of_list o h.seen hsymbols hafter ordered start spread rfl, mark_eq o hsame]
  have hcontent := Tree.content_withoutSilent t
  have hafter' : b.after o t.withoutSilent = b.after o t := by
    rw [Before.after, Before.after, hcontent]
  refine ⟨h.left.after _, h.right.after _, fits_after o t rfl hlast, ?_⟩
  rw [← hafter']
  exact fits_after o t.withoutSilent rfl (by rwa [hcontent])

private theorem pairs_rule {last : Option Char} (h : Twins site b silence f f' last) (note : Option Position)
    (ts : List (Tree (Option Position))) (pen : Pen) :
    Pairs (silence && minds o site b (.node note .thematicBreak ts)) Diverge
      ((pure (List.replicate 3 (Printer.ruleMark o (some f))) : Printing (Except Fault) (List Char)) pen)
      ((pure (List.replicate 3 (Printer.ruleMark o (some f'))) : Printing (Except Fault) (List Char)) pen) := by
  refine ⟨_, pen, _, pen, rfl, rfl, fun hdiffer => ?_, fun hdiffer => ⟨congrArg _ ?_, rfl⟩⟩
  · obtain ⟨rfl, hminds⟩ := Bool.and_eq_true_iff.1 hdiffer
    exact diverge_cons ((ruleMark_paragraph o h.left h.right h.seen h.told note ts).2 hminds) _ _
  · cases silence with
    | false => rw [ruleMark_eq o h.left h.seen, ruleMark_eq o h.right h.told, if_neg Bool.false_ne_true]
    | true =>
      by_contra hne
      have hminds := (ruleMark_paragraph o h.left h.right h.seen h.told note ts).1 hne
      rw [hminds] at hdiffer
      cases hdiffer

private theorem pairs_list {pen : Pen} (h : Twins site b silence f f' pen.symbol?) (hafter : pen.around.after.Known)
    {note : Option Position} {ordered : Bool} {start : Option Int} {spread : Bool} {ts ts' : List (Tree (Option Position))}
    (hts : ∃ t rest, ts = t :: rest ∧ t.kind = .listItem) (hts' : ∃ t rest, ts' = t :: rest ∧ t.kind = .listItem)
    {differ : Bool}
    (hitems : Pairs differ Diverge
      (listText o (s.inside f) ts (b.mark o ordered) ordered start spread (pen.withSymbol (b.mark o ordered)))
      (listText o (s'.inside f') ts' (b.mark o ordered) ordered start spread (pen.withSymbol (b.mark o ordered)))) :
    Pairs (silence && minds o site b (.node note (.list ordered start spread) ts) || differ) Diverge
      ((Printer.standard o).render (s.inside f) (.ofTree (.node note (.list ordered start spread) ts)) pen)
      ((Printer.standard o).render (s'.inside f') (.ofTree (.node note (.list ordered start spread) ts')) pen) := by
  have hsymbol : Printer.listSymbol o (s.inside f).current pen.symbol? (.bool ordered) =
      (if silence then .paragraph else b : Before).mark o ordered := listSymbol_eq_mark o h.seen ordered
  have hsymbol' : Printer.listSymbol o (s'.inside f').current pen.symbol? (.bool ordered) = b.mark o ordered :=
    listSymbol_eq_mark o h.told ordered
  rw [render_list, render_list, hsymbol, hsymbol']
  have hminds := mark_paragraph o site b note ordered start spread ts
  cases hdiffer : silence && minds o site b (.node note (.list ordered start spread) ts) with
  | true =>
    obtain ⟨rfl, hmind⟩ := Bool.and_eq_true_iff.1 hdiffer
    obtain ⟨number, hnumber, -⟩ := exists_itemMarker ordered start 0
    obtain ⟨t, rest, rfl, ht⟩ := hts
    obtain ⟨t', rest', rfl, ht'⟩ := hts'
    obtain ⟨more, pen₁, hrun⟩ := exists_listText o (hnumber _) (isBlank_mark o .paragraph ordered) spread ht rest
      (s.inside f) (pen.withSymbol (Before.paragraph.mark o ordered)) (by rwa [withSymbol_around])
    obtain ⟨more', pen₂, hrun'⟩ := exists_listText o (hnumber _) (isBlank_mark o b ordered) spread ht' rest'
      (s'.inside f') (pen.withSymbol (b.mark o ordered)) (by rwa [withSymbol_around])
    refine ⟨_, pen₁, _, pen₂, hrun, hrun', fun _ => ?_, fun hsame => by cases hsame⟩
    exact (diverge_cons (hminds.2 hmind) _ _).append_left number
  | false =>
    rw [mark_eq o hdiffer, Bool.false_or]
    exact hitems

/-- Paragraphs and verbatim blocks do not mind what stands before them. -/
private theorem undisturbed {note : Option Position} {content : Content} {ts : List (Tree (Option Position))}
    (h : content.kind = .paragraph ∨ content.kind = .frontMatter ∨ content.kind = .codeBlock) (mark : Option Char) :
    (silence && minds o site b (.node note content ts) || disturbed o mark (.node note content ts)) = false := by
  cases silence <;> cases content <;> first | rfl | simp [Content.kind] at h

private theorem pairs_paragraph (hrank : (s.inside f).rank = (s'.inside f').rank) {pen : Pen}
    (hafter : pen.around.after.Known)
    (hatx : pen.atx = false) {note : Option Position} {ts : List (Tree (Option Position))}
    (ht : ∀ u ∈ (Tree.node note .paragraph ts).preorder, Tree.Composed u) :
    Pairs false Diverge ((Printer.standard o).render (s.inside f) (.ofTree (.node note .paragraph ts)) pen)
      ((Printer.standard o).render (s'.inside f') (.ofTree (.node note .paragraph ts)) pen) := by
  have hinline : ∀ u ∈ Tree.preorderList ts, u.kind.isInline = true := Tree.inline_below ht (.inr (.inl rfl))
  obtain ⟨x, pen', hrun, -⟩ := exists_render o _ ht (s.inside f) pen hafter hatx
  rw [render_paragraph, inlineContent_congr o hinline hrank, ← render_paragraph o _ note] at hrun ⊢
  exact pairs_same hrun

private theorem pairs_verbatim {content : Content} (h : content.kind = .frontMatter ∨ content.kind = .codeBlock)
    (note : Option Position) (ts ts' : List (Tree (Option Position))) (pen : Pen) :
    Pairs false Diverge ((Printer.standard o).render (s.inside f) (.ofTree (.node note content ts)) pen)
      ((Printer.standard o).render (s'.inside f') (.ofTree (.node note content ts')) pen) := by
  obtain ⟨text, htext⟩ := render_verbatim o note content h
  rw [htext, htext]
  exact pairs_same rfl

mutual

/-- A block is printed alike without paragraphs without children in it and before it, unless one of them disturbs. -/
theorem pairs_render : ∀ (t : Tree (Option Position)), (∀ u ∈ t.preorder, Tree.Composed u) →
    (t.kind.isFlow = true ∨ t.kind = .frontMatter) → ∀ {site : Site} {b : Before} {silence : Bool} {f f' : Frame}
    {s s' : Scene} {pen : Pen}, Twins site b silence f f' pen.symbol? → s.rank = s'.rank → pen.around.after.Known →
    pen.atx = false → pen.symbols ≠ [] →
      Pairs (silence && minds o site b t || disturbed o (b.markFor o t) t) Diverge
        ((Printer.standard o).render (s.inside f) (.ofTree t) pen)
        ((Printer.standard o).render (s'.inside f') (.ofTree t.withoutSilent) pen)
  | .node note content children, h, hkind, site, b, silence, f, f', s, s', pen, htwins, hrank, hafter, hatx, hsymbols => by
    have hbelow := Tree.forall_mem_preorderList.2 (Tree.forall_mem_preorder.1 h).2
    have hrows := pairs_renderBlocks children hbelow
    have hitems := pairs_renderItems children hbelow
    have hcomposed := h _ (.head _)
    have hrank' : (s.inside f).rank = (s'.inside f').rank := hrank
    cases content with
    | heading depth =>
      rw [Tree.withoutSilent_inline (Tree.inline_below h (.inl rfl))]
      have hdiffer := pairs_heading o htwins hrank hafter hatx h
      rwa [← Bool.or_false (silence && _)] at hdiffer
    | paragraph =>
      rw [Tree.withoutSilent_inline (Tree.inline_below h (.inr (.inl rfl))), undisturbed o (.inl rfl)]
      exact pairs_paragraph o hrank' hafter hatx h
    | thematicBreak =>
      have hdiffer : (silence && minds o site b (.node note .thematicBreak children) ||
          disturbed o (b.markFor o (.node note .thematicBreak children)) (.node note .thematicBreak children)) =
          (silence && minds o site b (.node note .thematicBreak children)) := Bool.or_false _
      rw [hdiffer, Tree.withoutSilent, render_thematicBreak, render_thematicBreak]
      exact pairs_rule o htwins note children pen
    | blockQuote =>
      have hdiffer : (silence && minds o site b (.node note .blockQuote children) ||
          disturbed o (b.markFor o (.node note .blockQuote children)) (.node note .blockQuote children)) =
          disturbedRow o { kind := .blockQuote } .nothing false children := by
        cases silence <;> rfl
      rw [hdiffer]
      refine pairs_container o rfl rfl (fun x y hxy => hxy.quoteText) (hrows ?_ ?_ hrank' hafter hatx (by simp))
      · intro c hc
        exact hcomposed.blocks (.inr (.inl rfl)) c hc
      · refine twins_nothing ⟨rfl, rfl, by simp, ?_⟩ rfl _
        intro c
        rfl
    | list ordered start spread =>
      obtain ⟨hne, hkinds⟩ := hcomposed.items rfl
      rw [Tree.withoutSilent]
      refine pairs_list o htwins hafter ?_ ?_ ?_
      · obtain ⟨t, rest, rfl⟩ := List.exists_cons_of_ne_nil hne
        exact ⟨t, rest, rfl, hkinds t (.head _)⟩
      · obtain ⟨t, rest, rfl⟩ := List.exists_cons_of_ne_nil hne
        have ht := hkinds t (.head _)
        exact ⟨_, _, withoutSilentList_item ht rest, (congrArg Content.kind (Tree.content_withoutSilent t)).trans ht⟩
      · refine pairs_map _ (pairs_enclosed (hitems hkinds ?_ rfl rfl hrank' ?_ ?_ 0)) fun xs ys hxy => hxy.join _
        · intro k
          obtain ⟨number, hnumber, hordered, hblank⟩ := exists_itemMarker ordered start k
          refine ⟨_, hnumber _, by simp, fun c => ?_⟩
          rw [trim_marker hblank (isBlank_mark o b ordered)]
          cases ordered with
          | false =>
            rw [hordered.2 rfl, Bool.eq_iff_iff]
            simp [Before.markFor, Tree.content]
          | true =>
            have hne : number ≠ [] := fun hnil => by cases hordered.1 hnil
            obtain ⟨d, ds, rfl⟩ := List.exists_cons_of_ne_nil hne
            rw [Bool.eq_iff_iff]
            simp
        · rwa [withSymbol_around]
        · rwa [withSymbol_atx]
    | frontMatter value =>
      rw [undisturbed o (.inr (.inl rfl)), Tree.withoutSilent]
      exact pairs_verbatim o (.inl rfl) note _ _ pen
    | codeBlock value lang details =>
      rw [undisturbed o (.inr (.inr rfl)), Tree.withoutSilent]
      exact pairs_verbatim o (.inr rfl) note _ _ pen
    | _ => rcases hkind with hkind | hkind <;> cases hkind

/-- A row of blocks is printed alike, but for the texts from a disturbed block on. -/
private theorem pairs_renderBlocks :
    ∀ (ts : List (Tree (Option Position))), (∀ u ∈ Tree.preorderList ts, Tree.Composed u) →
    (∀ t ∈ ts, t.kind.isFlow = true ∨ t.kind = .frontMatter) → ∀ {site : Site} {b : Before} {silence : Bool} {f f' : Frame}
    {s s' : Scene} {pen : Pen}, Twins site b silence f f' pen.symbol? → s.rank = s'.rank → pen.around.after.Known →
    pen.atx = false → pen.symbols ≠ [] →
      Pairs (disturbedRow o site b silence ts) RowsDiverge
        ((Printer.standard o).renderBlocks s f (Draft.ofTrees ts) pen)
        ((Printer.standard o).renderBlocks s' f' (Draft.ofTrees (Tree.withoutSilentList ts)) pen)
  | [], _, _, site, b, silence, f, f', s, s', pen, _, _, _, _, _ => by
    rw [Tree.withoutSilentList, Draft.ofTrees, Printer.renderBlocks, Printer.renderBlocks]
    exact pairs_same rfl
  | t :: ts, h, hkinds, site, b, silence, f, f', s, s', pen, htwins, hrank, hafter, hatx, hsymbols => by
    obtain ⟨ht, hts⟩ := List.forall_mem_append.1 h
    obtain ⟨hkind, hkinds⟩ := List.forall_mem_cons.1 hkinds
    have hrender := pairs_render t ht hkind htwins hrank hafter hatx hsymbols
    have hrest := @pairs_renderBlocks ts hts hkinds
    have hpast : (s.past (emphasisCount (.ofTree t))).rank = (s'.past (emphasisCount (.ofTree t.withoutSilent))).rank := by
      rw [emphasisCount_withoutSilent]
      exact congrArg (· + _) hrank
    rw [Tree.withoutSilentList, disturbedRow]
    cases hsilent : t.isSilent with
    | true =>
      have hnothing : emphasisCount (.ofTree t) = 0 := by
        obtain ⟨note, content, children⟩ := t
        obtain ⟨rfl, rfl⟩ := Tree.isSilent_iff.1 hsilent
        rfl
      rw [if_pos rfl, if_pos rfl, Draft.ofTrees, Printer.renderBlocks, render_silent o (s.inside f) hsilent, hnothing]
      have hskip := hrest (htwins.skip hsilent) (s := s.past 0) hrank hafter hatx hsymbols
      rwa [← bind_pure ((Printer.standard o).renderBlocks _ _ (Draft.ofTrees ts))] at hskip
    | false =>
      rw [if_neg Bool.false_ne_true, if_neg Bool.false_ne_true, Draft.ofTrees, Draft.ofTrees, Printer.renderBlocks,
        Printer.renderBlocks]
      refine pairs_cons (fun x xs => if x.isEmpty then xs else x :: xs) ?_ ?_ hafter (runs_render o t _)
        (runs_render o t.withoutSilent _) (runs_renderBlocks o ts _ _) (runs_renderBlocks o _ _ _) hrender ?_
      · intro x xs hx
        rw [if_neg (by simpa using hx)]
      · intro x
        cases x with
        | nil => exact .inr fun xs => rfl
        | cons c cs => exact .inl fun xs => rfl
      · intro hdiffer x p hrun
        obtain ⟨y, q, hrun', hknown, hq, hqsymbols⟩ := exists_render o t ht (s.inside f) pen hafter hatx
        cases hrun.symm.trans hrun'
        refine hrest (twins_after o htwins t ?_ hsymbols hqsymbols) hpast hknown hq ?_
        · exact (Bool.or_eq_false_iff.1 hdiffer).1
        · rw [hqsymbols]
          exact symbolsAfter_ne_nil o hsymbols

private theorem pairs_renderItems :
    ∀ (ts : List (Tree (Option Position))), (∀ u ∈ Tree.preorderList ts, Tree.Composed u) →
    (∀ t ∈ ts, t.kind = .listItem) → ∀ {bullet : Option Char} {marker : Nat → Except Fault (List Char)},
    (∀ k, ∃ m, marker k = .ok m ∧ m ≠ [] ∧ ∀ c, (trim m == [c]) = (bullet == some c)) → ∀ {f f' : Frame}, f.kind = .list →
    f'.kind = .list → ∀ {s s' : Scene} {pen : Pen}, s.rank = s'.rank → pen.around.after.Known → pen.atx = false → ∀ index,
      Pairs (disturbedItems o bullet ts) RowsDiverge
        ((Printer.standard o).renderItems s f marker index (Draft.ofTrees ts) pen)
        ((Printer.standard o).renderItems s' f' marker index (Draft.ofTrees (Tree.withoutSilentList ts)) pen)
  | [], _, _, bullet, marker, _, f, f', _, _, s, s', pen, _, _, _, index => by
    rw [Tree.withoutSilentList, Draft.ofTrees, Printer.renderItems, Printer.renderItems]
    exact pairs_same rfl
  | t :: ts, h, hkinds, bullet, marker, hmarker, f, f', hf, hf', s, s', pen, hrank, hafter, hatx, index => by
    obtain ⟨ht, hts⟩ := List.forall_mem_append.1 h
    obtain ⟨hkind, hkinds⟩ := List.forall_mem_cons.1 hkinds
    have hrest := @pairs_renderItems ts hts hkinds bullet marker hmarker
    have hmarkers : ∀ k, ∃ m, marker k = .ok m := fun k => ⟨_, (hmarker k).choose_spec.1⟩
    have hpast : (s.past (emphasisCount (.ofTree t))).rank = (s'.past (emphasisCount (.ofTree t.withoutSilent))).rank := by
      rw [emphasisCount_withoutSilent]
      exact congrArg (· + _) hrank
    obtain ⟨note, content, children⟩ := t
    cases content with
    | listItem spread checked =>
      have hrows := pairs_renderBlocks children (Tree.forall_mem_preorderList.2 (Tree.forall_mem_preorder.1 ht).2)
      obtain ⟨m, hm, hne, hbullet⟩ := hmarker index
      have hkinds' : ∀ c ∈ children, c.kind.isFlow = true ∨ c.kind = .frontMatter :=
        (ht _ (.head _)).blocks (.inr (.inr rfl))
      have hcurrent (s : Scene) {g : Frame} (hg : g.kind = .list) :
          Printer.markerFor o (s.inside { g with marker := m }).current = m := if_pos hg
      let site : Site := { kind := .listItem, tight := !spread, bullet }
      let g : Frame :=
        { kind := .listItem, tight := !spread, lead := List.replicate m.length ' ', symbol := trim m }
      have hsite : site.Fits g := ⟨rfl, rfl, fun _ => rfl, hbullet⟩
      have hitem : Pairs (disturbedRow o site .nothing false children) Diverge
          ((Printer.standard o).render (s.inside { f with marker := m })
            (.ofTree (.node note (.listItem spread checked) children)) pen)
          ((Printer.standard o).render (s'.inside { f' with marker := m })
            (.ofTree (.node note (.listItem spread checked) (Tree.withoutSilentList children))) pen) :=
        pairs_container o (by rw [hcurrent s hf]; rfl) (by rw [hcurrent s' hf']; rfl) (fun x y hxy => hxy.itemText hne _)
          (hrows hkinds' (twins_nothing hsite rfl _) hrank hafter hatx (by simp))
      rw [withoutSilentList_item rfl, Draft.ofTrees, Draft.ofTrees, Printer.renderItems, Printer.renderItems, hm]
      have hlift : (Printer.lift (.ok m) : Printing (Except Fault) (List Char)) pen = .ok (m, pen) := rfl
      rw [run_bind m pen hlift, run_bind m pen hlift]
      refine pairs_cons (fun x xs => x :: xs) (fun _ _ _ => rfl) (fun _ => .inl fun _ => rfl) hafter
        (runs_render o _ _) (runs_render o _ _) (runs_renderItems o ts _ _ hmarkers (index + 1))
        (runs_renderItems o (Tree.withoutSilentList ts) _ _ hmarkers (index + 1)) hitem fun _ x p hrun => ?_
      obtain ⟨y, q, hrun', hknown, hq, -⟩ := exists_render o _ ht (s.inside { f with marker := m }) pen hafter hatx
      cases hrun.symm.trans hrun'
      refine hrest ?_ ?_ hpast hknown hq (index + 1)
      · exact hf
      · exact hf'
    | _ => cases hkind

end

/-- The text of a document is that of its root, which ends with a line feed. -/
theorem printTree_eq {α : Type} {t : Tree α} {text : List Char} {pen : Pen}
    (h : (Printer.standard o).render {} (.ofTree (t.map fun _ => none)) {} = .ok (text, pen)) :
    printTree o t = .ok (if text.isEmpty then [] else text ++ ['\n']) := by
  show (((Printer.standard o).render {} (.ofTree (t.map fun _ => none)) {} >>= fun p => pure p.1) >>=
    fun text => pure (if text.isEmpty then [] else text ++ ['\n'])) = _
  rw [h]
  rfl

/-- Leaving out the paragraphs without children changes nothing about what is printed if and only if none of them
disturbs. -/
theorem printTree_withoutSilent_iff {α : Type} {t : Tree α} (ht : ∀ u ∈ t.preorder, Tree.Composed u)
    (hroot : t.kind = .root) : printTree o t.withoutSilent = printTree o t ↔ disturbed o none t = false := by
  obtain ⟨note, content, children⟩ := t
  cases content with
  | root =>
    have hmap : (Tree.node note .root children).map (fun _ => (none : Option Position)) =
        .node none .root (Tree.mapList (fun _ => none) children) := rfl
    have ht' : ∀ u ∈ ((Tree.node note .root children).map fun _ => (none : Option Position)).preorder, Tree.Composed u := by
      rw [Tree.preorder_map, List.forall_mem_map]
      exact fun u hu => (ht u hu).map _
    rw [hmap] at ht'
    let site : Site := { kind := .root }
    let f : Frame := { kind := .root }
    let below := Tree.mapList (fun _ => (none : Option Position)) children
    have hsite : site.Fits f := ⟨rfl, rfl, by simp [site], fun _ => rfl⟩
    have hrows : Pairs (disturbedRow o site .nothing false below) RowsDiverge
        ((Printer.standard o).renderBlocks {} f (Draft.ofTrees below) { symbols := [none] })
        ((Printer.standard o).renderBlocks {} f (Draft.ofTrees (Tree.withoutSilentList below)) { symbols := [none] }) :=
      pairs_renderBlocks o below (Tree.forall_mem_preorderList.2 (Tree.forall_mem_preorder.1 ht').2)
        ((ht' _ (.head _)).blocks (.inl rfl)) (twins_nothing hsite rfl _) rfl ⟨false, rfl⟩ rfl (by simp)
    have hroot : Pairs (disturbedRow o site .nothing false below) Diverge
        ((Printer.standard o).render {} (.ofTree (.node none .root below)) {})
        ((Printer.standard o).render {} (.ofTree (.node none .root (Tree.withoutSilentList below))) {}) :=
      pairs_container o rfl rfl (fun _ _ h => h) hrows
    obtain ⟨x, p, y, q, hx, hy, hdiffer, hsame⟩ := hroot
    rw [Tree.withoutSilentList_map] at hy
    rw [disturbedRow_map] at hdiffer hsame
    have hprint : printTree o (.node note .root children) = _ := printTree_eq o hx
    have hprint' : printTree o (Tree.node note .root children).withoutSilent = _ := printTree_eq o hy
    rw [hprint, hprint']
    have hdisturbed : disturbed o none (.node note .root children) =
        disturbedRow o { kind := .root } .nothing false children := rfl
    rw [hdisturbed]
    cases hd : disturbedRow o { kind := .root } .nothing false children with
    | true =>
      have hxy := hdiffer hd
      refine iff_of_false (fun h => ?_) (by simp)
      rw [if_neg (by simpa using hxy.symm.ne_nil), if_neg (by simpa using hxy.ne_nil)] at h
      exact hxy.ne (List.append_cancel_right (Except.ok.inj h)).symm
    | false => exact iff_of_true (by rw [(hsame hd).1]) rfl
  | _ => cases hroot

end MarkdownTree.Print

namespace MarkdownTree

open Print

/-- Deleting inline nodes from a scanned tree may leave paragraphs without children.  Printing the tree with and without
these gives the same text if and only if none of them stands before a block that is printed otherwise for it. -/
theorem scan_printTree_withoutSilent (o : ScanOptions) (q : PrintOptions) (path : Option String) (text : String) :
    ∃ tree, (Scan.scan o path text).tree = some tree ∧ ∀ t, Tree.Thins tree t →
      (printTree q t.withoutSilent = printTree q t ↔ disturbed q none t = false) := by
  obtain ⟨tree, htree, hroot, hgrammatical⟩ := scan_grammatical o path text
  refine ⟨tree, htree, fun t ht => printTree_withoutSilent_iff q (fun v hv => ?_) ?_⟩
  · obtain ⟨u, hu, hthins⟩ := ht.exists_mem_preorder hv
    exact hthins.composed (hgrammatical u hu)
  · exact (congrArg Content.kind ht.content_eq).trans hroot

/-- A paragraph of code between two others leaves nothing behind without the code. -/
theorem scan_printTree_withoutSilent_code :
    ∃ tree, (Scan.scan {} none "a\n\n\x60b\x60\n\nc").tree = some tree ∧
      let t := tree.thin (· == .inlineCode)
      t.withoutSilent ≠ t ∧ printTree {} t.withoutSilent = printTree {} t := by
  obtain ⟨tree, htree, h⟩ := scan_printTree_withoutSilent {} {} none "a\n\n\x60b\x60\n\nc"
  cases (tree_scan {} none "a\n\n\x60b\x60\n\nc").symm.trans htree
  refine ⟨_, htree, ?_, (h _ (Tree.thins_thin _ _)).2 ?_⟩
  · decide +kernel
  · decide +kernel

/-- A paragraph of code between two lists leaves something behind: the marks of the lists are alike, and both are read as
one list. -/
theorem scan_printTree_silent :
    ∃ tree again, (Scan.scan {} none "- a\n\n\x60b\x60\n\n- c").tree = some tree ∧
      let t := tree.thin (· == .inlineCode)
      Tree.Thins tree t ∧ printTree {} t = .ok "* a\n\n* c\n".toList ∧
        printTree {} t.withoutSilent = .ok "* a\n\n- c\n".toList ∧
        (Scan.scan {} none "* a\n\n* c\n").tree = some again ∧ again.children.length = 1 := by
  refine ⟨_, _, tree_scan {} none "- a\n\n\x60b\x60\n\n- c", Tree.thins_thin _ _, ?_, ?_,
    tree_scan {} none "* a\n\n* c\n", ?_⟩
  · exact eq_ok_of_toOption (by decide +kernel)
  · exact eq_ok_of_toOption (by decide +kernel)
  · decide +kernel

end MarkdownTree
