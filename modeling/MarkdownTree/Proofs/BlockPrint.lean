import MarkdownTree.Proofs.Divergence
import MarkdownTree.Proofs.Silence
import MarkdownTree.Proofs.Writing

/-!
# Printed blocks

How a block of each kind is printed in a scene, and what that does to the pen: only a list leaves another mark in the
innermost container (`exists_render`).  What is printed for a list starts with the marker of its first item
(`exists_listText`).
-/

namespace MarkdownTree.Print

open Text

/-! ### Printing outside of marked headings -/

/-- Printing that succeeds outside of marked headings, stays outside of them, and leaves the marks of the lists in outer
containers as they are. -/
def Keeps {α : Type} (x : Printing (Except Fault) α) : Prop :=
  ∀ pen : Pen, pen.around.after.Known → pen.atx = false →
    ∃ a pen', x pen = .ok (a, pen') ∧ pen'.around.after.Known ∧ pen'.atx = false ∧ pen'.symbols.tail = pen.symbols.tail

section

variable {α β : Type}

private theorem Yields.keeps {P : α → Prop} {x : Printing (Except Fault) α} (h : Yields false P x) : Keeps x := by
  intro pen hafter hatx
  obtain ⟨a, pen', hrun, hafter', hatx', hsymbols, -⟩ := h pen hafter hatx
  exact ⟨a, pen', hrun, hafter', hatx', congrArg _ hsymbols⟩

theorem Yields.mono {atx : Bool} {P Q : α → Prop} {x : Printing (Except Fault) α} (h : Yields atx P x)
    (hPQ : ∀ a, P a → Q a) : Yields atx Q x := by
  intro pen hafter hatx
  obtain ⟨a, pen', hrun, hafter', hatx', hsymbols, ha⟩ := h pen hafter hatx
  exact ⟨a, pen', hrun, hafter', hatx', hsymbols, hPQ a ha⟩

private theorem keeps_bind {x : Printing (Except Fault) α} {f : α → Printing (Except Fault) β} (hx : Keeps x)
    (hf : ∀ a, Keeps (f a)) : Keeps (x >>= f) := by
  intro pen hafter hatx
  obtain ⟨a, pen', hrun, hafter', hatx', hsymbols⟩ := hx pen hafter hatx
  obtain ⟨b, pen'', hrun', hafter'', hatx'', hsymbols'⟩ := hf a pen' hafter' hatx'
  exact ⟨b, pen'', (run_bind a pen' hrun).trans hrun', hafter'', hatx'', hsymbols'.trans hsymbols⟩

/-- Inside a container the marks of its own lists are left behind. -/
private theorem yields_enclosed {x : Printing (Except Fault) α} (hx : Keeps x) :
    Yields false (fun _ => True) (Printer.enclosed x) := by
  intro pen hafter hatx
  obtain ⟨a, pen', hrun, hafter', hatx', hsymbols⟩ := hx { pen with symbols := none :: pen.symbols } hafter hatx
  refine ⟨a, { pen' with symbols := pen'.symbols.tail }, ?_, hafter', hatx', hsymbols, trivial⟩
  exact (run_bind () _ rfl).trans (run_bind a pen' hrun)

end

variable (o : PrintOptions)

/-- The content of a paragraph or a heading, as it is printed in a scene. -/
abbrev inlineContent (s : Scene) (ts : List (Tree (Option Position))) : Printing (Except Fault) (List Char) :=
  (Printer.standard o).settle s (Draft.ofTrees ts)
    ((Printer.standard o).renderInlines s none none .nothing true (Draft.ofTrees ts))

/-- A heading with marks before it, as it is printed in a scene. -/
def markedHeading (s : Scene) (depth : Int) (ts : List (Tree (Option Position))) :
    Printing (Except Fault) (List Char) := do
  Printer.change fun pen => { pen with atx := true }
  let content ← inlineContent o s ts
  Printer.change fun pen => { pen with atx := false }
  return atxText o.closeAtx (List.replicate depth.toNat '#') content

/-- A heading with a line under it, as it is printed in a scene; without anything to underline it has marks. -/
def underlinedHeading (s : Scene) (depth : Int) (ts : List (Tree (Option Position))) :
    Printing (Except Fault) (List Char) := do
  let content ← inlineContent o s ts
  if (trim content).isEmpty then markedHeading o s depth ts else return setextText (.int depth) content

/-- Whether a heading is underlined if there is something to underline. -/
def underlines (frame : Option Frame) (depth : Int) (ts : List (Tree (Option Position))) : Bool :=
  Decidable.decide (depth ≤ 2) && (o.setext || ts.any Tree.breaksLine) && !frame.any Frame.belowParagraph

mutual

private theorem breaksLine_eq : ∀ t : Tree (Option Position), breaksLine (.ofTree t) = .ok t.breaksLine
  | .node note content children => by
    have hbelow : (Draft.checkChildren content.kind content.fields >>= fun _ =>
        breaksLineList (Draft.ofTrees children)) = .ok (children.any Tree.breaksLine) := by
      rw [checkChildren_fields]
      exact breaksLineList_eq children
    have hnode : (Tree.node note content children).breaksLine = ((match content with
        | .text value => value.toList.contains '\n'
        | .lineBreak => true
        | _ => false) || children.any Tree.breaksLine) := by
      rw [Tree.breaksLine, Tree.preorder, List.any_cons, Tree.any_preorderList]
      cases content <;> rfl
    rw [Draft.ofTree, hnode]
    cases content with
    | text value =>
      show (if value.toList.contains '\n' then _ else _ : Except Fault Bool) = _
      split
      · rename_i h
        dsimp only
        rw [h, Bool.true_or]
        rfl
      · rename_i h
        dsimp only
        rw [Bool.eq_false_iff.2 h, Bool.false_or]
        exact hbelow
    | lineBreak => rfl
    | _ => exact hbelow

private theorem breaksLineList_eq : ∀ ts : List (Tree (Option Position)),
    breaksLineList (Draft.ofTrees ts) = .ok (ts.any Tree.breaksLine)
  | [] => rfl
  | t :: ts => by
    rw [Draft.ofTrees, breaksLineList, breaksLine_eq t, breaksLineList_eq ts, List.any_cons]
    cases t.breaksLine <;> rfl

end

private theorem isUnderlined_eq (frame : Option Frame) (depth : Int) (ts : List (Tree (Option Position))) :
    Printer.isUnderlined o frame (.int depth) (Draft.ofTrees ts) = .ok (underlines o frame depth ts) := by
  rw [Printer.isUnderlined, breaksLineList_eq]
  show Except.ok ((Size.ofInt depth).upTo (.ofInt 2) && (o.setext || ts.any Tree.breaksLine) &&
    !frame.any Frame.belowParagraph) = _
  rw [Size.upTo_ofInt]
  rfl

/-! ### Kinds of blocks -/

/-- The frame that a container other than a list opens, and what is made of the text inside it. -/
def container? (marker : List Char) : Content → Option (Frame × (List Char → List Char))
  | .root => some ({ kind := .root }, id)
  | .blockQuote => some ({ kind := .blockQuote, lead := ['>', ' '] }, quoteText)
  | .listItem spread checked =>
    let lead := List.replicate marker.length ' '
    some ({ kind := .listItem, tight := !spread, lead, symbol := trim marker },
      itemText marker (taskBox ((checked.map Value.bool).getD .null)))
  | _ => none

section

variable (s : Scene) (note : Option Position) (ts : List (Tree (Option Position)))

theorem render_container {content : Content} {f : Frame} {wrap : List Char → List Char}
    (h : container? (Printer.markerFor o s.current) content = some (f, wrap)) :
    (Printer.standard o).render s (.ofTree (.node note content ts)) = do
      return wrap (join f.separator (← Printer.enclosed ((Printer.standard o).renderBlocks s f (Draft.ofTrees ts)))) := by
  funext pen
  rw [Draft.ofTree, Printer.render]
  cases content with
  | root | blockQuote | listItem =>
    cases h
    exact run_bind () pen rfl
  | _ => cases h

/-- The items of a list with a mark, as they are printed in a scene. -/
def listText (symbol : Char) (ordered : Bool) (start : Option Int) (spread : Bool) :
    Printing (Except Fault) (List Char) := do
  let f : Frame := { kind := .list, tight := !spread, symbol := [symbol] }
  let marker := itemMarker ordered symbol ((start.map Value.int).getD .null)
  return join f.separator (← Printer.enclosed ((Printer.standard o).renderItems s f marker 0 (Draft.ofTrees ts)))

/-- While the items of a list are printed, and thereafter, the pen has the mark of the list. -/
theorem render_list (ordered : Bool) (start : Option Int) (spread : Bool) (pen : Pen) :
    let symbol := Printer.listSymbol o s.current pen.symbol? (.bool ordered)
    (Printer.standard o).render s (.ofTree (.node note (.list ordered start spread) ts)) pen =
      listText o s ts symbol ordered start spread (pen.withSymbol symbol) := by
  intro symbol
  rw [Draft.ofTree, Printer.render]
  exact (run_bind () pen rfl).trans ((run_bind pen pen rfl).trans (run_bind () (pen.withSymbol symbol) rfl))

theorem render_paragraph :
    (Printer.standard o).render s (.ofTree (.node note .paragraph ts)) = inlineContent o s ts := by
  funext pen
  rw [Draft.ofTree, Printer.render]
  exact run_bind () pen rfl

/-- A heading is printed with marks unless it is underlined. -/
theorem render_heading (depth : Int) :
    (Printer.standard o).render s (.ofTree (.node note (.heading depth) ts)) =
      if underlines o s.current depth ts then underlinedHeading o s depth ts else markedHeading o s depth ts := by
  funext pen
  rw [Draft.ofTree, Printer.render]
  refine (run_bind () pen rfl).trans ((run_bind (underlines o s.current depth ts) pen ?_).trans ?_)
  · show Printer.lift (Printer.isUnderlined o s.current (.int depth) (Draft.ofTrees ts)) pen = _
    rw [isUnderlined_eq]
    rfl
  · cases underlines o s.current depth ts <;> rfl

theorem render_thematicBreak :
    (Printer.standard o).render s (.ofTree (.node note .thematicBreak ts)) =
      pure (List.replicate 3 (Printer.ruleMark o s.current)) := by
  funext pen
  rw [Draft.ofTree, Printer.render]
  exact run_bind () pen rfl

theorem render_codeBlock {value : String} {lang details : Option String} {text : List Char}
    (h : codeBlockText o.fence (.ofText? lang) (.ofText? details) (.text value) = .ok text) :
    (Printer.standard o).render s (.ofTree (.node note (.codeBlock value lang details) ts)) = pure text := by
  funext pen
  rw [Draft.ofTree, Printer.render]
  refine (run_bind () pen rfl).trans ?_
  show Printer.lift (codeBlockText o.fence (.ofText? lang) (.ofText? details) (.text value)) pen = _
  rw [h]
  rfl

/-- Front matter and code are printed alike everywhere. -/
theorem render_verbatim (content : Content) (h : content.kind = .frontMatter ∨ content.kind = .codeBlock) :
    ∃ text, ∀ s ts, (Printer.standard o).render s (.ofTree (.node note content ts)) = pure text := by
  cases content with
  | frontMatter value =>
    refine ⟨frontMatterText (.text value), fun s ts => funext fun pen => ?_⟩
    rw [Draft.ofTree, Printer.render]
    exact run_bind () pen rfl
  | codeBlock value lang details =>
    obtain ⟨text, htext⟩ := codeBlockText_fields o.fence lang details value
    exact ⟨text, fun s ts => render_codeBlock o s note ts htext⟩
  | _ => rcases h with h | h <;> cases h

end

theorem render_silent (s : Scene) {t : Tree (Option Position)} (h : t.isSilent = true) :
    (Printer.standard o).render s (.ofTree t) = pure [] := by
  obtain ⟨note, content, children⟩ := t
  obtain ⟨rfl, rfl⟩ := Tree.isSilent_iff.1 h
  rw [render_paragraph, inlineContent, Draft.ofTrees, Printer.renderInlines]
  rfl

theorem inlineContent_congr {s s' : Scene} {ts : List (Tree (Option Position))}
    (h : ∀ u ∈ Tree.preorderList ts, u.kind.isInline = true) (hrank : s.rank = s'.rank) :
    inlineContent o s ts = inlineContent o s' ts := by
  unfold inlineContent
  rw [settle_congr o hrank, renderInlines_congr o ts h hrank]

theorem markedHeading_congr {s s' : Scene} {ts : List (Tree (Option Position))}
    (h : ∀ u ∈ Tree.preorderList ts, u.kind.isInline = true) (hrank : s.rank = s'.rank) (depth : Int) :
    markedHeading o s depth ts = markedHeading o s' depth ts := by
  unfold markedHeading
  rw [inlineContent_congr o h hrank]

theorem underlinedHeading_congr {s s' : Scene} {ts : List (Tree (Option Position))}
    (h : ∀ u ∈ Tree.preorderList ts, u.kind.isInline = true) (hrank : s.rank = s'.rank) (depth : Int) :
    underlinedHeading o s depth ts = underlinedHeading o s' depth ts := by
  unfold underlinedHeading
  rw [inlineContent_congr o h hrank, markedHeading_congr o h hrank]

theorem run_underlinedHeading {s : Scene} {ts : List (Tree (Option Position))} {x : List Char} {pen pen' : Pen}
    (hrun : inlineContent o s ts pen = .ok (x, pen')) (depth : Int) :
    underlinedHeading o s depth ts pen =
      if (trim x).isEmpty then markedHeading o s depth ts pen' else .ok (setextText (.int depth) x, pen') := by
  refine (run_bind x pen' hrun).trans ?_
  split <;> rfl

/-! ### What blocks do to a pen -/

theorem yields_inlineContent {ts : List (Tree (Option Position))}
    (h : ∀ u ∈ Tree.preorderList ts, u.kind.isInline = true) (atx : Bool) (s : Scene) :
    Yields atx (Writes atx true ts) (inlineContent o s ts) :=
  yields_settle o s ts (yields_renderInlines o ts h s none none ⟨false, rfl⟩ true none)

theorem yields_markedHeading {ts : List (Tree (Option Position))}
    (h : ∀ u ∈ Tree.preorderList ts, u.kind.isInline = true) (s : Scene) (depth : Int) :
    Yields false (fun x => ∃ content, Writes true true ts content ∧
      x = atxText o.closeAtx (List.replicate depth.toNat '#') content) (markedHeading o s depth ts) := by
  intro pen hafter _
  obtain ⟨content, pen', hrun, hafter', -, hsymbols, hwrites⟩ :=
    yields_inlineContent o h true s { pen with atx := true } hafter rfl
  refine ⟨_, { pen' with atx := false }, ?_, hafter', rfl, hsymbols, content, hwrites, rfl⟩
  exact (run_bind () _ rfl).trans ((run_bind content pen' hrun).trans rfl)

/-- The marks of the lists in the open containers after a block. -/
def symbolsAfter (s : Scene) (t : Tree (Option Position)) (pen : Pen) : List (Option Char) :=
  match t.content with
  | .list ordered _ _ => (pen.withSymbol (Printer.listSymbol o s.current pen.symbol? (.bool ordered))).symbols
  | _ => pen.symbols

private theorem tail_withSymbol (pen : Pen) (symbol : Char) :
    (pen.withSymbol symbol).symbols.tail = pen.symbols.tail := by
  unfold Pen.withSymbol
  split
  · rename_i h
    rw [h]
    rfl
  · rfl

private theorem tail_symbolsAfter (s : Scene) (t : Tree (Option Position)) (pen : Pen) :
    (symbolsAfter o s t pen).tail = pen.symbols.tail := by
  unfold symbolsAfter
  split
  · exact tail_withSymbol pen _
  · rfl

section

variable {s : Scene} {note : Option Position} {ts : List (Tree (Option Position))}

private theorem yields_container {content : Content} {f : Frame} {wrap : List Char → List Char}
    (h : container? (Printer.markerFor o s.current) content = some (f, wrap))
    (hblocks : Keeps ((Printer.standard o).renderBlocks s f (Draft.ofTrees ts))) :
    Yields false (fun _ => True) ((Printer.standard o).render s (.ofTree (.node note content ts))) := by
  rw [render_container o s note ts h]
  exact yields_bind (yields_enclosed hblocks) fun _ _ => yields_pure trivial

private theorem yields_heading {depth : Int} (h : ∀ u ∈ Tree.preorderList ts, u.kind.isInline = true) :
    Yields false (fun _ => True) ((Printer.standard o).render s (.ofTree (.node note (.heading depth) ts))) := by
  have hmarked := (yields_markedHeading o h s depth).mono (Q := fun _ => True) fun _ _ => trivial
  rw [render_heading]
  split
  · rw [underlinedHeading]
    refine yields_bind (yields_inlineContent o h false s) fun _ _ => ?_
    split
    · exact hmarked
    · exact yields_pure trivial
  · exact hmarked

theorem withSymbol_around (pen : Pen) (symbol : Char) : (pen.withSymbol symbol).around = pen.around := by
  unfold Pen.withSymbol
  split <;> rfl

theorem withSymbol_atx (pen : Pen) (symbol : Char) : (pen.withSymbol symbol).atx = pen.atx := by
  unfold Pen.withSymbol
  split <;> rfl

private theorem yields_listText (symbol : Char) (ordered : Bool) (start : Option Int) (spread : Bool)
    (hitems : ∀ (f : Frame) {marker : Nat → Except Fault (List Char)}, (∀ k, ∃ cs, marker k = .ok cs) →
      Keeps ((Printer.standard o).renderItems s f marker 0 (Draft.ofTrees ts))) :
    Yields false (fun _ => True) (listText o s ts symbol ordered start spread) :=
  yields_bind (yields_enclosed (hitems _ (itemMarker_fields ordered symbol start))) fun _ _ => yields_pure trivial

end

mutual

/-- Printing a node leaves the marks of the lists in the open containers as they are, but for that of a list. -/
theorem exists_render : ∀ (t : Tree (Option Position)), (∀ u ∈ t.preorder, Tree.Composed u) → ∀ (s : Scene) (pen : Pen),
    pen.around.after.Known → pen.atx = false →
      ∃ x pen', (Printer.standard o).render s (.ofTree t) pen = .ok (x, pen') ∧ pen'.around.after.Known ∧
        pen'.atx = false ∧ pen'.symbols = symbolsAfter o s t pen
  | .node note content children, h, s, pen, hafter, hatx => by
    have hbelow := Tree.forall_mem_preorderList.2 (Tree.forall_mem_preorder.1 h).2
    have hblocks := keeps_renderBlocks children hbelow
    have hitems := keeps_renderItems children hbelow
    have hyields (hx : Yields false (fun _ => True) ((Printer.standard o).render s (.ofTree (.node note content children)))) :
        ∃ x pen', (Printer.standard o).render s (.ofTree (.node note content children)) pen = .ok (x, pen') ∧
          pen'.around.after.Known ∧ pen'.atx = false ∧ pen'.symbols = pen.symbols := by
      obtain ⟨x, pen', hrun, hafter', hatx', hsymbols, -⟩ := hx pen hafter hatx
      exact ⟨x, pen', hrun, hafter', hatx', hsymbols⟩
    by_cases hinline : content.kind.isInline = true
    · obtain ⟨x, pen', hrun, hafter', hatx', hsymbols, -⟩ :=
        writes_render o (.node note content children) (Tree.inline_preorder h hinline) s pen hafter
      refine ⟨x, pen', hrun, hafter', hatx'.trans hatx, hsymbols.trans ?_⟩
      cases content <;> first | rfl | cases hinline
    cases content with
    | list ordered start spread =>
      let symbol := Printer.listSymbol o s.current pen.symbol? (.bool ordered)
      obtain ⟨x, pen', hrun, hafter', hatx', hsymbols, -⟩ := yields_listText o symbol ordered start spread
        (fun f {_} hmarker => hitems s f hmarker 0) (pen.withSymbol symbol) (by rwa [withSymbol_around])
        (by rwa [withSymbol_atx])
      exact ⟨x, pen', (render_list o s note children ordered start spread pen).trans hrun, hafter', hatx', hsymbols⟩
    | root | blockQuote | listItem => exact hyields (yields_container o rfl (hblocks s _))
    | heading depth => exact hyields (yields_heading o (Tree.inline_below h (.inl rfl)))
    | paragraph =>
      refine hyields ?_
      rw [render_paragraph]
      exact (yields_inlineContent o (Tree.inline_below h (.inr (.inl rfl))) false s).mono fun _ _ => trivial
    | thematicBreak =>
      refine hyields ?_
      rw [render_thematicBreak]
      exact yields_pure trivial
    | frontMatter value =>
      obtain ⟨text, htext⟩ := render_verbatim o note (.frontMatter value) (.inl rfl)
      refine hyields ?_
      rw [htext]
      exact yields_pure trivial
    | codeBlock value lang details =>
      obtain ⟨text, htext⟩ := render_verbatim o note (.codeBlock value lang details) (.inr rfl)
      refine hyields ?_
      rw [htext]
      exact yields_pure trivial
    | _ => exact absurd rfl hinline

theorem keeps_renderBlocks : ∀ (ts : List (Tree (Option Position))), (∀ u ∈ Tree.preorderList ts, Tree.Composed u) →
    ∀ (s : Scene) (f : Frame), Keeps ((Printer.standard o).renderBlocks s f (Draft.ofTrees ts))
  | [], _, s, f => by
    rw [Draft.ofTrees, Printer.renderBlocks]
    exact (yields_pure (P := fun _ => True) trivial).keeps
  | t :: ts, h, s, f => by
    obtain ⟨ht, hts⟩ := List.forall_mem_append.1 h
    have hrender := exists_render t ht
    have hrest := keeps_renderBlocks ts hts
    rw [Draft.ofTrees, Printer.renderBlocks]
    refine keeps_bind (fun pen hafter hatx => ?_) fun _ => keeps_bind (hrest _ _) fun _ =>
      (yields_pure (P := fun _ => True) trivial).keeps
    obtain ⟨x, pen', hrun, hafter', hatx', hsymbols⟩ := hrender (s.inside f) pen hafter hatx
    exact ⟨x, pen', hrun, hafter', hatx', hsymbols ▸ tail_symbolsAfter o _ t pen⟩

private theorem keeps_renderItems :
    ∀ (ts : List (Tree (Option Position))), (∀ u ∈ Tree.preorderList ts, Tree.Composed u) →
    ∀ (s : Scene) (f : Frame) {marker : Nat → Except Fault (List Char)} (_ : ∀ k, ∃ cs, marker k = .ok cs)
    (index : Nat), Keeps ((Printer.standard o).renderItems s f marker index (Draft.ofTrees ts))
  | [], _, s, f, marker, hmarker, index => by
    rw [Draft.ofTrees, Printer.renderItems]
    exact (yields_pure (P := fun _ => True) trivial).keeps
  | t :: ts, h, s, f, marker, hmarker, index => by
    obtain ⟨ht, hts⟩ := List.forall_mem_append.1 h
    have hrender := exists_render t ht
    have hrest := keeps_renderItems ts hts
    obtain ⟨m, hm⟩ := hmarker index
    rw [Draft.ofTrees, Printer.renderItems]
    refine keeps_bind (yields_lift (P := fun _ => True) hm trivial).keeps fun m => ?_
    refine keeps_bind (fun pen hafter hatx => ?_) fun _ => keeps_bind (hrest _ _ hmarker _) fun _ =>
      (yields_pure (P := fun _ => True) trivial).keeps
    obtain ⟨x, pen', hrun, hafter', hatx', hsymbols⟩ := hrender (s.inside { f with marker := m }) pen hafter hatx
    exact ⟨x, pen', hrun, hafter', hatx', hsymbols ▸ tail_symbolsAfter o _ t pen⟩

end

theorem symbol?_withSymbol {pen : Pen} (h : pen.symbols ≠ []) (symbol : Char) :
    (pen.withSymbol symbol).symbol? = some symbol := by
  obtain ⟨last, rest, hsymbols⟩ := List.exists_cons_of_ne_nil h
  unfold Pen.withSymbol
  rw [hsymbols]
  rfl

theorem symbolsAfter_ne_nil {s : Scene} {t : Tree (Option Position)} {pen : Pen} (h : pen.symbols ≠ []) :
    symbolsAfter o s t pen ≠ [] := by
  obtain ⟨last, rest, hsymbols⟩ := List.exists_cons_of_ne_nil h
  unfold symbolsAfter Pen.withSymbol
  split
  · rw [hsymbols]
    simp
  · exact h

/-! ### Markers -/

theorem isBlank_toDigits {n : Nat} {c : Char} (h : c ∈ Nat.toDigits 10 n) : isBlank c = false :=
  Scan.isBlank_of_isDigit (isDigit_toDigits h)

/-- What stands before the mark in the marker of a list item: nothing if the list is not ordered. -/
theorem exists_itemMarker (ordered : Bool) (start : Option Int) (index : Nat) : ∃ number : List Char,
    (∀ symbol, itemMarker ordered symbol ((start.map Value.int).getD .null) index = .ok (number ++ [symbol, ' '])) ∧
      (number = [] ↔ ordered = false) ∧ ∀ c ∈ number, isBlank c = false := by
  cases ordered with
  | false => exact ⟨[], fun _ => rfl, by simp, by simp⟩
  | true =>
    obtain ⟨n, hn⟩ : ∃ n : Int, ∀ symbol, itemMarker true symbol ((start.map Value.int).getD .null) index =
        .ok ((toString n).toList ++ [symbol, ' ']) := by
      cases start with
      | none => exact ⟨1 + index, fun _ => rfl⟩
      | some k => exact ⟨k + index, fun _ => rfl⟩
    refine ⟨_, hn, ?_⟩
    cases n with
    | ofNat k =>
      rw [show (toString (Int.ofNat k)).toList = Nat.toDigits 10 k from Nat.toList_repr]
      exact ⟨by simp [Nat.toDigits_ne_nil], fun c hc => isBlank_toDigits hc⟩
    | negSucc k =>
      have htext : (toString (Int.negSucc k)).toList = '-' :: Nat.toDigits 10 (k + 1) := by
        show ("-" ++ (k + 1).repr).toList = _
        rw [String.toList_append, Nat.toList_repr]
        rfl
      rw [htext]
      refine ⟨by simp, fun c hc => ?_⟩
      rcases hc with _ | ⟨_, hc⟩
      · decide
      · exact isBlank_toDigits hc

/-- What stands up to something that is not dropped stays. -/
private theorem exists_dropEndWhile {α : Type} {p : α → Bool} (before : List α) {c : α} (h : p c = false)
    (after : List α) :
    ∃ more, dropEndWhile p (before ++ c :: after) = before ++ c :: more := by
  induction after using List.reverseRecOn with
  | nil => exact ⟨[], dropEndWhile_eq_self (by simpa using h)⟩
  | append_singleton after d ih =>
    have hsplit : before ++ c :: (after ++ [d]) = (before ++ c :: after) ++ [d] := by simp
    rw [hsplit, dropEndWhile_concat]
    split
    · exact ih
    · exact ⟨after ++ [d], hsplit.symm⟩

theorem trim_marker {number : List Char} (hnumber : ∀ c ∈ number, isBlank c = false) {symbol : Char}
    (h : isBlank symbol = false) : trim (number ++ [symbol, ' ']) = number ++ [symbol] := by
  have hsplit : number ++ [symbol, ' '] = (number ++ [symbol]) ++ [' '] := by simp
  have hstart : trimStart (number ++ [symbol, ' ']) = number ++ [symbol, ' '] := by
    cases number with
    | nil => exact List.dropWhile_cons_of_neg (by simp [h])
    | cons c cs => exact List.dropWhile_cons_of_neg (by simp [hnumber c (.head _)])
  have hspace : ∀ c ∈ [' '], isBlank c = true := by
    intro c hc
    rw [List.mem_singleton.1 hc]
    rfl
  rw [trim, hstart, hsplit, trimEnd, dropEndWhile_append_of_pos _ hspace]
  exact dropEndWhile_eq_self (by simpa using h)

/-- The text of an item starts with its marker, whose mark stands even if nothing follows. -/
private theorem exists_itemText (number : List Char) {symbol : Char} (h : isBlank symbol = false)
    (box content : List Char) :
    ∃ more, itemText (number ++ [symbol, ' ']) box content = number ++ symbol :: more := by
  by_cases hcontent : content = []
  · have hempty : itemText (number ++ [symbol, ' ']) box content = trimEnd (number ++ symbol :: ' ' :: box) := by
      rw [hcontent, itemText, if_pos (by rfl)]
      simp
    rw [hempty]
    exact exists_dropEndWhile number h _
  · rw [itemText_eq_leadLines hcontent]
    refine ⟨' ' :: (box ++ leadLines [] (List.replicate (number ++ [symbol, ' ']).length ' ') false content), ?_⟩
    simp

theorem exists_join_cons (separator x : List Char) (xs : List (List Char)) :
    ∃ rest, join separator (x :: xs) = x ++ rest := by
  cases xs with
  | nil => exact ⟨[], by simp [join]⟩
  | cons y ys => exact ⟨separator ++ join separator (y :: ys), by simp [join]⟩

/-- The text of a list starts with the marker of its first item. -/
theorem exists_listText {ordered : Bool} {start : Option Int} {number : List Char} {symbol : Char}
    (hmarker : itemMarker ordered symbol ((start.map Value.int).getD .null) 0 = .ok (number ++ [symbol, ' ']))
    (hblank : isBlank symbol = false) (spread : Bool) {t : Tree (Option Position)} (ht : t.kind = .listItem)
    (ts : List (Tree (Option Position))) (s : Scene) (pen : Pen) (hafter : pen.around.after.Known) :
    ∃ more pen', listText o s (t :: ts) symbol ordered start spread pen = .ok (number ++ symbol :: more, pen') := by
  obtain ⟨note, content, children⟩ := t
  cases content with
  | listItem spread' checked =>
    let f : Frame := { kind := .list, tight := !spread, symbol := [symbol], marker := number ++ [symbol, ' '] }
    have hcontainer : container? (Printer.markerFor o (s.inside f).current) (.listItem spread' checked) = some _ := rfl
    obtain ⟨rows, pen₁, hrows, hafter₁⟩ :=
      runs_enclosed (runs_renderBlocks o children (s.inside f) _) { pen with symbols := none :: pen.symbols } hafter
    obtain ⟨more, hmore⟩ := exists_itemText number hblank (taskBox ((checked.map Value.bool).getD .null)) (join _ rows)
    have hitem : (Printer.standard o).render (s.inside f) (.ofTree (.node note (.listItem spread' checked) children))
        { pen with symbols := none :: pen.symbols } = .ok (number ++ symbol :: more, pen₁) := by
      rw [render_container o _ note children hcontainer, ← hmore]
      exact run_bind rows pen₁ hrows
    obtain ⟨texts, pen₂, htexts, -⟩ := runs_renderItems o ts
      (s.past (emphasisCount (.ofTree (.node note (.listItem spread' checked) children))))
      { f with previous := some (.ofTree (.node note (.listItem spread' checked) children)) }
      (itemMarker_fields ordered symbol start) 1 pen₁ hafter₁
    have hitems : (Printer.standard o).renderItems s { kind := .list, tight := !spread, symbol := [symbol] }
        (itemMarker ordered symbol ((start.map Value.int).getD .null)) 0
        (Draft.ofTrees (.node note (.listItem spread' checked) children :: ts))
        { pen with symbols := none :: pen.symbols } = .ok ((number ++ symbol :: more) :: texts, pen₂) := by
      rw [Draft.ofTrees, Printer.renderItems, hmarker]
      exact (run_bind _ _ rfl).trans ((run_bind _ pen₁ hitem).trans (run_bind texts pen₂ htexts))
    obtain ⟨rest, hrest⟩ := exists_join_cons f.separator (number ++ symbol :: more) texts
    refine ⟨more ++ rest, { pen₂ with symbols := pen₂.symbols.tail }, ?_⟩
    unfold listText
    refine (run_bind _ _ ((run_bind () _ rfl).trans (run_bind _ pen₂ hitems))).trans ?_
    show Except.ok (join f.separator _, _) = _
    rw [hrest]
    simp
  | _ => cases ht

end MarkdownTree.Print
