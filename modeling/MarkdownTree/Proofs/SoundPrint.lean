import MarkdownTree.Proofs.SoundHolder

/-!
# Sound trees stand in rows

Every block of a sound tree is printed as lines that stand as that block (`exists_block`), and siblings are printed as
blocks that stand side by side (`exists_row`): each ends what was printed before it, since nothing that would go on with
a neighbour stands next to it.
-/

namespace MarkdownTree

open Text Scan Print

namespace Print

private theorem legible_printed {t : Tree Unit} (h : ∀ u ∈ t.preorder, u.Arranged) :
    ∀ u ∈ (t.map fun _ => (none : Option Position)).preorder, Legible u := by
  rw [Tree.preorder_map, List.forall_mem_map]
  intro u hu
  obtain ⟨hcomposed, hneat, hflow, hstart⟩ := (h u hu).legible
  refine ⟨hcomposed.map _, hneat.map _, fun hkind => ?_, fun ordered start spread hcontent => ?_⟩
  · rw [Tree.kind_map] at hkind
    rw [Tree.children_map, List.forall_mem_map]
    intro c hc
    rw [Tree.kind_map]
    exact hflow hkind c hc
  · rw [Tree.content_map] at hcontent
    exact hstart ordered start spread hcontent

theorem enclosed_eq {α : Type} {x : Printing (Except Fault) α} {pen pen' : Pen} {a : α}
    (h : x { pen with symbols := none :: pen.symbols } = .ok (a, pen')) :
    Printer.enclosed x pen = .ok (a, { pen' with symbols := pen'.symbols.tail }) :=
  (run_bind () _ rfl).trans (run_bind a pen' h)

private theorem Pen.Clean.withSymbol {pen : Pen} (h : pen.Clean) (symbol : Char) : (pen.withSymbol symbol).Clean := by
  unfold Pen.withSymbol
  split
  · exact ⟨h.known, h.atx, h.decided⟩
  · exact h

private theorem Pen.Clean.within {pen : Pen} (h : pen.Clean) (symbols : List (Option Char)) :
    Pen.Clean { pen with symbols } :=
  ⟨h.known, h.atx, h.decided⟩

section

variable (o : ScanOptions) (q : PrintOptions)

mutual

/-- A sound block is printed as one that stands for it. -/
theorem exists_block : ∀ (t : Tree Unit), (∀ u ∈ t.preorder, u.Arranged) → (∀ u ∈ t.preorder, u.Sound q) →
    t.kind.isFlow = true → ∀ {site : Site} {b : Before} {f : Frame} (_ : site.Fits f) (s : Scene) {pen : Pen}
    (_ : pen.Clean) (_ : b.Fits f pen.symbol?), (site.tight = true → t.MayFollow q b) →
    ∃ x pen' d, (Printer.standard q).render (s.inside f) (printed t) pen = .ok (x, pen') ∧ pen'.Clean ∧
      Shows o q site b t x d
  | .node note content ts, h, hsound, hflow, site, b, f, hsite, s, pen, hpen, hbefore, hfollows => by
    have hbelow := Tree.forall_mem_preorderList.2 (Tree.forall_mem_preorder.1 h).2
    have hsounds := Tree.forall_mem_preorderList.2 (Tree.forall_mem_preorder.1 hsound).2
    have hnode := h _ (Tree.mem_preorder_self _)
    have hrow := exists_row ts hbelow hsounds
    have hitems := exists_items ts hbelow hsounds
    cases content with
    | paragraph => exact exists_paragraph o q h hsound rfl hfollows s hpen
    | heading depth =>
      have hdepth : Content.Phrasing (ts.map Tree.content) ∧ 1 ≤ depth ∧ depth ≤ 6 := hnode.admits
      obtain ⟨n, rfl⟩ := Int.eq_ofNat_of_zero_le (a := depth) (by omega)
      exact exists_heading o q h hsound rfl hsite hbefore hfollows s hpen
    | thematicBreak => exact exists_rule o q h rfl hsite hbefore s hpen
    | codeBlock => exact exists_code o q h hsound rfl s hpen
    | blockQuote =>
      let inner : Frame := { kind := .blockQuote, lead := ['>', ' '] }
      let place : Site := { kind := .blockQuote }
      have hfits : place.Fits inner := ⟨rfl, rfl, by simp [place], fun _ => rfl⟩
      obtain ⟨xs, pen', row, hrun, hclean, hshows⟩ := hrow hnode.admits hfits (s.inside f)
        (hpen.within (none :: pen.symbols)) (by simp) (fits_nothing rfl) fun htight => by cases htight
      obtain ⟨d, hd⟩ : ∃ d, Shows o q site b (.node () .blockQuote ts) (quoteText (join inner.separator xs)) d :=
        shows_quoteText rfl rfl hshows
      have hcontainer :
          container? (Printer.markerFor q (s.inside f).current) .blockQuote = some (inner, quoteText) := rfl
      refine ⟨_, { pen' with symbols := pen'.symbols.tail }, d, ?_, hclean.within _, hd⟩
      refine (congrFun (render_container q (s.inside f) none (unplaced ts) hcontainer) pen).trans ?_
      exact run_bind _ _ (enclosed_eq hrun)
    | list ordered start spread =>
      have hadmits : ts.map Tree.content ≠ [] ∧ (∀ c ∈ ts.map Tree.content, c.kind = .listItem) ∧
        ordered = start.isSome ∧ ∀ n ∈ start, 0 ≤ n ∧ n ≤ 999999999 := hnode.admits
      obtain ⟨hne, hkinds, rfl, hstart⟩ := hadmits
      let inner : Frame := { kind := .list, tight := !spread, symbol := [b.mark q start.isSome] }
      have hsymbol :
          Printer.listSymbol q (s.inside f).current pen.symbol? (.bool start.isSome) = b.mark q start.isSome :=
        listSymbol_eq_mark q hbefore _
      have hmark : IsListMark start.isSome (b.mark q start.isSome) := by
        rw [← hsymbol]
        exact isListMark_listSymbol q _ _ _
      have hsoundNode := hsound _ (Tree.mem_preorder_self _)
      have hnumbers : ∀ n, start = some n → n + (0 : Nat) + ts.length ≤ 1000000000 := by
        rintro n rfl
        have hn : n + ts.length ≤ 1000000000 := hsoundNode
        omega
      have hmarks : start = none → q.bullet = .plus ∨ ∀ t ∈ ts, t.marks < 3 := by
        rintro rfl
        exact hsoundNode
      let listPen := pen.withSymbol (b.mark q start.isSome)
      have hclean := (hpen.withSymbol (b.mark q start.isSome)).within (none :: listPen.symbols)
      obtain ⟨xs, pen', rows, hrun, hclean', hshows⟩ := hitems hkinds hmark (fun n hn => (hstart n hn).1) 0 hnumbers
        hmarks (s.inside f) (f := inner) rfl hclean
      obtain ⟨t, ts, rfl⟩ := List.exists_cons_of_ne_nil (show ts ≠ [] by simpa using hne)
      obtain ⟨d, hd⟩ := shows_listText hnode hshows hfollows
      refine ⟨_, { pen' with symbols := pen'.symbols.tail }, d, ?_, hclean'.within _, hd⟩
      refine (render_list q (s.inside f) none _ start.isSome start spread pen).trans ?_
      rw [hsymbol]
      refine (run_bind _ _ (enclosed_eq hrun)).trans ?_
      cases spread <;> rfl
    | _ => cases hflow

/-- Sound blocks side by side are printed as blocks that stand side by side. -/
theorem exists_row : ∀ (ts : List (Tree Unit)), (∀ u ∈ Tree.preorderList ts, u.Arranged) →
    (∀ u ∈ Tree.preorderList ts, u.Sound q) → (∀ c ∈ ts.map Tree.content, c.kind.isFlow = true) →
    ∀ {site : Site} {b : Before} {f : Frame} (_ : site.Fits f) (s : Scene) {pen : Pen} (_ : pen.Clean)
    (_ : pen.symbols ≠ []) (_ : b.Fits f pen.symbol?), (site.tight = true → (∀ t ∈ ts.head?, t.MayFollow q b) ∧
      ts.IsChain (Tree.Stops q) ∧ ts.IsChain Tree.Parted) →
    ∃ xs pen' row, (Printer.standard q).renderBlocks s f (Draft.ofTrees (unplaced ts)) pen = .ok (xs, pen') ∧
      pen'.Clean ∧ ShowsRow o site b ts xs row
  | [], _, _, _, site, b, f, _, s, pen, hpen, _, _, _ => by
    refine ⟨[], pen, [], ?_, hpen, .nil⟩
    rw [unplaced, Tree.mapList, Draft.ofTrees, Printer.renderBlocks]
    rfl
  | t :: ts, h, hsound, hflow, site, b, f, hsite, s, pen, hpen, hsymbols, hbefore, hfollows => by
    obtain ⟨ht, hts⟩ := List.forall_mem_append.1 h
    obtain ⟨hsoundt, hsounds⟩ := List.forall_mem_append.1 hsound
    obtain ⟨hflowt, hflows⟩ := List.forall_mem_cons.1 hflow
    obtain ⟨x, pen', d, hrun, hclean, hd⟩ := exists_block t ht hsoundt hflowt hsite s hpen hbefore
      fun htight => (hfollows htight).1 t rfl
    obtain ⟨_, _, hrun', -, -, hafter⟩ := exists_render q _ (fun u hu => (legible_printed ht u hu).composed)
      (s.inside f) pen hpen.known hpen.atx
    cases hrun.symm.trans hrun'
    have hlast := symbol?_of_list q hbefore hsymbols hafter
    have hnext : (b.after q t).Fits { f with previous := some (printed t) } pen'.symbol? := by
      rw [← Before.after_map q (fun _ => (none : Option Position)) b t]
      exact fits_after q _ rfl hlast
    have hsymbols' : pen'.symbols ≠ [] := hafter ▸ symbolsAfter_ne_nil q hsymbols
    obtain ⟨xs, pen'', row, hruns, hclean', hrow⟩ := exists_row ts hts hsounds hflows (hsite.after (some (printed t)))
      (s.past (emphasisCount (printed t))) hclean hsymbols' hnext fun htight => by
        obtain ⟨-, hstops, hparted⟩ := hfollows htight
        refine ⟨fun u hu => ?_, (List.isChain_cons.1 hstops).2, (List.isChain_cons.1 hparted).2⟩
        exact mayFollow_after ((List.isChain_cons.1 hstops).1 u hu) ((List.isChain_cons.1 hparted).1 u hu)
    refine ⟨x :: xs, pen'', d :: row, ?_, hclean', ⟨?_, ?_, ?_, ?_, ?_⟩⟩
    · rw [unplaced, Tree.mapList, Draft.ofTrees, Printer.renderBlocks]
      refine (run_bind x pen' hrun).trans ((run_bind xs pen'' hruns).trans ?_)
      rw [if_neg (by simpa using hd.ne_nil)]
      rfl
    · rw [List.map_cons, hd.tree, hrow.trees]
    · rw [List.map_cons, List.map_cons, hd.lines, hrow.lines]
    · exact List.forall_mem_cons.2 ⟨hd.stands, hrow.stands⟩
    · refine List.isChain_cons.2 ⟨fun e he => hd.meets rfl (hrow.joins e he) fun htight => ?_, hrow.meets⟩
      refine (List.isChain_cons.1 (hfollows htight).2.2).1 e.tree ?_
      rw [← hrow.trees, List.head?_map, Option.mem_def.1 he]
      rfl
    · rintro _ ⟨⟩
      exact hd.joins

/-- A sound item is printed as a row with its marker. -/
private theorem exists_item : ∀ (t : Tree Unit), (∀ u ∈ t.preorder, u.Arranged) → (∀ u ∈ t.preorder, u.Sound q) →
    t.kind = .listItem → ∀ {number : Option Nat} {symbol : Char} (_ : IsListMark number.isSome symbol)
    (_ : ∀ n ∈ number, n ≤ 999999999) (_ : number = none → q.bullet = .plus ∨ t.marks < 3) (s : Scene) {f : Frame}
    (_ : f.kind = .list) (_ : f.marker = numeral number ++ [symbol, ' ']) {pen : Pen} (_ : pen.Clean),
    ∃ x pen' r, (Printer.standard q).render (s.inside f) (printed t) pen = .ok (x, pen') ∧ pen'.Clean ∧
      ShowsItem o number symbol t x r
  | .node note content ts, h, hsound, hkind, number, symbol, hsymbol, hnumber, hmarks, s, f, hf, hmarker, pen,
    hpen => by
    have hbelow := Tree.forall_mem_preorderList.2 (Tree.forall_mem_preorder.1 h).2
    have hsounds := Tree.forall_mem_preorderList.2 (Tree.forall_mem_preorder.1 hsound).2
    have hnode := h _ (Tree.mem_preorder_self _)
    have hsoundNode := hsound _ (Tree.mem_preorder_self _)
    have hrow := exists_row ts hbelow hsounds
    cases content with
    | listItem spread checked =>
      have htext := isMarkerText_numeral hsymbol
      obtain ⟨hchecked, hparted⟩ := hnode.scannable
      let lead := List.replicate (numeral number ++ [symbol, ' ']).length ' '
      let inner : Frame :=
        { kind := .listItem, tight := !spread, lead, symbol := trim (numeral number ++ [symbol, ' ']) }
      have hcontainer : container? (Printer.markerFor q (s.inside f).current) (.listItem spread checked) =
          some (inner, itemText (numeral number ++ [symbol, ' ']) (Holder.box checked)) := by
        rw [show Printer.markerFor q (s.inside f).current = f.marker from if_pos hf, hmarker]
        rfl
      obtain ⟨xs, pen', row, hrun, hclean, hshows⟩ := hrow hnode.admits (fits_item htext spread lead) (s.inside f)
        (hpen.within (none :: pen.symbols)) (by simp) (fits_nothing rfl) fun htight => by
          obtain rfl : spread = false := by simpa [itemSite] using htight
          exact ⟨fun t _ => ⟨by rintro ⟨⟩, by rintro _ _ ⟨⟩⟩, hsoundNode, hparted⟩
      have hrender : (Printer.standard q).render (s.inside f) (printed (.node note (.listItem spread checked) ts)) pen =
          .ok (itemText (numeral number ++ [symbol, ' ']) (Holder.box checked) (join inner.separator xs),
            { pen' with symbols := pen'.symbols.tail }) :=
        (congrFun (render_container q (s.inside f) none (unplaced ts) hcontainer) pen).trans
          (run_bind _ _ (enclosed_eq hrun))
      -- The first line is known from how items are printed in general.
      obtain ⟨_, _, hrender', -, -, hline⟩ := prints_item q _ (legible_printed h) rfl htext s hf hmarker pen hpen.known
        hpen.atx
      cases hrender.symm.trans hrender'
      have hread := hline.readsAsItem (by cases q.bullet <;> decide) hsymbol
      have hrule : isRule (firstLine (itemText (numeral number ++ [symbol, ' ']) (Holder.box checked)
          (join inner.separator xs))) = false := by
        refine Bool.eq_false_iff.2 fun hrule => ?_
        obtain ⟨rfl, hsame, hplus, hthree⟩ := hread.rule.1 hrule
        rw [marks_map] at hthree
        rcases hmarks rfl with hbullet | hfew
        · rw [hbullet] at hsame
          exact hplus hsame
        · exact absurd hthree (Nat.not_le.2 hfew)
      have hspread : spread = true → hasLeader ts = true := by
        rintro rfl
        exact hparted
      obtain ⟨r, hr⟩ := showsItem hsymbol hnumber hchecked hspread hshows.trees (fields_join_row hshows.lines inner)
        hshows.stands hshows.meets hrule
      exact ⟨_, _, r, hrender, hclean.within _, hr⟩
    | _ => cases hkind

/-- Sound items are printed as rows with the markers that the list gives them. -/
private theorem exists_items : ∀ (ts : List (Tree Unit)), (∀ u ∈ Tree.preorderList ts, u.Arranged) →
    (∀ u ∈ Tree.preorderList ts, u.Sound q) → (∀ c ∈ ts.map Tree.content, c.kind = .listItem) →
    ∀ {start : Option Int} {symbol : Char} (_ : IsListMark start.isSome symbol) (_ : ∀ n, start = some n → 0 ≤ n)
    (index : Nat) (_ : ∀ n, start = some n → n + index + ts.length ≤ 1000000000)
    (_ : start = none → q.bullet = .plus ∨ ∀ t ∈ ts, t.marks < 3) (s : Scene) {f : Frame} (_ : f.kind = .list)
    {pen : Pen} (_ : pen.Clean), ∃ xs pen' rows, (Printer.standard q).renderItems s f
        (itemMarker start.isSome symbol ((start.map Value.int).getD .null)) index (Draft.ofTrees (unplaced ts)) pen =
          .ok (xs, pen') ∧ pen'.Clean ∧ ShowsItems o (start.map (·.toNat + index)) symbol ts xs rows
  | [], _, _, _, start, symbol, _, _, index, _, _, s, f, _, pen, hpen => by
    refine ⟨[], pen, [], ?_, hpen, rfl, by simp, .nil, by simp⟩
    rw [unplaced, Tree.mapList, Draft.ofTrees, Printer.renderItems]
    rfl
  | t :: ts, h, hsound, hkinds, start, symbol, hsymbol, hstart, index, hnumber, hmarks, s, f, hf, pen, hpen => by
    obtain ⟨ht, hts⟩ := List.forall_mem_append.1 h
    obtain ⟨hsoundt, hsounds⟩ := List.forall_mem_append.1 hsound
    obtain ⟨hkind, hkinds⟩ := List.forall_mem_cons.1 hkinds
    have hsome (k : Nat) : (start.map (·.toNat + k)).isSome = start.isSome := Option.isSome_map
    have hbound : ∀ n ∈ start.map (·.toNat + index), n ≤ 999999999 := by
      rintro _ hn
      obtain ⟨n, rfl, rfl⟩ := Option.mem_map.1 hn
      have := hnumber n rfl
      have := hstart n rfl
      rw [List.length_cons] at *
      omega
    have hmark : start.map (·.toNat + index) = none → q.bullet = .plus ∨ t.marks < 3 := fun hnone =>
      (hmarks (Option.map_eq_none_iff.1 hnone)).imp_right fun hfew => hfew t (.head _)
    let g : Frame := { f with marker := numeral (start.map (·.toNat + index)) ++ [symbol, ' '] }
    obtain ⟨x, pen', r, hrun, hclean, hr⟩ := exists_item t ht hsoundt hkind (by rwa [hsome]) hbound hmark s
      (f := g) hf rfl hpen
    obtain ⟨xs, pen'', rows, hruns, hclean', hrows⟩ := exists_items ts hts hsounds hkinds hsymbol hstart (index + 1)
      (fun n hn => by have := hnumber n hn; rw [List.length_cons] at this; push_cast at this ⊢; omega)
      (fun hnone => (hmarks hnone).imp_right fun hfew u hu => hfew u (.tail _ hu)) (s.past (emphasisCount (printed t)))
      (f := { g with previous := some (printed t) }) hf hclean
    refine ⟨x :: xs, pen'', r :: rows, ?_, hclean', ?_, ?_, .cons hr.reads hrows.reads, ?_⟩
    · rw [unplaced, Tree.mapList, Draft.ofTrees, Printer.renderItems, itemMarker_numeral hstart]
      exact (run_bind _ pen rfl).trans ((run_bind x pen' hrun).trans (run_bind xs pen'' hruns))
    · rw [List.map_cons, List.map_cons, hr.lines, hrows.lines]
    · have hstands := hrows.stands
      rw [hsome] at hstands ⊢
      exact List.forall_mem_cons.2 ⟨hsome index ▸ hr.stands, hstands⟩
    · rintro _ ⟨⟩
      refine ⟨hr.numbered, hr.mark, fun hfirst => ?_⟩
      rintro _ ⟨⟩
      exact hr.first hfirst

end

end

end Print

end MarkdownTree
