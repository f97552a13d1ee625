import MarkdownTree.Proofs.ItemLine
import MarkdownTree.Proofs.PlainPrint
import MarkdownTree.Proofs.QuietPrint
import MarkdownTree.Proofs.RoundTrip

/-!
# Markers of printed items

Each item of a printed list starts with its marker, and what stands first in an item starts on the same line.  Lists of
empty items nested in each other are all printed there, so the line may consist of bullets only (`Tree.marks`).  Where
three of them are the same they make a rule, and a number of more than nine digits makes no marker; all other items are
read as items of their list (`scan_render_list`).
-/

namespace MarkdownTree

open Text Scan

/-- How many bullets a block or an item is printed as, if that is all it is printed as; else none. -/
def Tree.marks {α : Type} : Tree α → Nat
  | .node _ (.list false _ _) (t :: _) => marks t
  | .node _ (.listItem _ checked) [] => if checked = none then 1 else 0
  | .node _ (.listItem _ checked) (t :: _) => if checked = none ∧ marks t ≠ 0 then marks t + 1 else 0
  | _ => 0

namespace Print

/-! ### Blocks that stand first in an item -/

section

variable {mark : Char} (hmark : IsBullet mark)
include hmark

private theorem breaks_of_firm {x : List Char} (h : IsFirm true x) : Breaks mark (firstLine x) := by
  obtain ⟨marks, c, rest, rfl, hmarks, hblank, hstar, hunder, hline⟩ := h
  have hnewline : '\n' ∉ marks := fun hmem => by
    rcases hmarks _ hmem with h | h <;> cases h
  have hc : c ≠ '\n' := by
    rintro rfl
    cases hblank
  rw [firstLine_append hnewline, firstLine_cons hc]
  by_cases hne : c = mark
  · -- A hyphen or a plus stands behind an emphasis mark.
    cases marks with
    | nil =>
      have hlineMark := hline rfl rfl
      rcases hmark with rfl | rfl | rfl
      · rw [hne] at hlineMark
        cases hlineMark
      · rw [hne] at hlineMark
        cases hlineMark
      · exact absurd hne hstar
    | cons d marks =>
      have hd := hmarks d (.head _)
      refine breaks_of_mem (.head _) (fun hdm => ?_) ?_
      · rcases hmark with rfl | rfl | rfl
        · rcases hd with rfl | rfl <;> cases hdm
        · rcases hd with rfl | rfl <;> cases hdm
        · exact hstar hne
      · rcases hd with rfl | rfl <;> decide
  · exact breaks_of_mem (by simp) hne hblank

private theorem breaks_of_cons {c : Char} (hc : c ≠ '-' ∧ c ≠ '+' ∧ c ≠ '*' ∧ isBlank c = false) (rest : List Char) :
    Breaks mark (firstLine (c :: rest)) := by
  have hne : c ≠ '\n' := by
    rintro rfl
    cases hc.2.2.2
  rw [firstLine_cons hne]
  refine breaks_of_mem (.head _) ?_ hc.2.2.2
  rcases hmark with rfl | rfl | rfl
  · exact hc.1
  · exact hc.2.1
  · exact hc.2.2.1

end

private theorem exists_cons_of_codeBlockText {fence : FenceMark} {lang details : Option String} {value : String}
    {text : List Char}
    (h : codeBlockText fence (.ofText? lang) (.ofText? details) (.text value) = .ok text) :
    ∃ mark rest, text = mark :: rest ∧ (mark = '\x60' ∨ mark = '~') := by
  have hfenced (mark : Char) (info : List Char) : ∃ rest, fencedText mark info value.toList = mark :: rest := by
    obtain ⟨n, hn⟩ := Nat.exists_eq_add_of_le' (show 1 ≤ max 3 (longestRun mark 0 0 value.toList + 1) by omega)
    rw [fencedText, hn, List.replicate_succ]
    exact ⟨_, rfl⟩
  obtain ⟨info, hinfo⟩ := infoValue_fields lang details
  obtain ⟨mark, hmark, htext⟩ : ∃ mark, (mark = '\x60' ∨ mark = '~') ∧
      codeBlockText fence (.ofText? lang) (.ofText? details) (.text value) = .ok
        (fencedText mark info.toList value.toList) := by
    rw [codeBlockText, hinfo]
    cases fence with
    | backtick => exact ⟨if info.toList.contains '\x60' then '~' else '\x60', by split <;> simp, rfl⟩
    | tilde => exact ⟨'~', .inr rfl, rfl⟩
  obtain ⟨rest, hrest⟩ := hfenced mark info.toList
  rw [h, hrest] at htext
  exact ⟨mark, rest, Except.ok.inj htext, hmark⟩

private theorem exists_cons_of_quoteText (content : List Char) : ∃ rest, quoteText content = '>' :: rest := by
  by_cases hne : content = []
  · rw [hne]
    exact ⟨[], rfl⟩
  · rw [quoteText_eq_leadLines hne]
    obtain ⟨c, cs, rfl⟩ := List.exists_cons_of_ne_nil hne
    unfold leadLines
    split
    · split
      · exact ⟨_, rfl⟩
      · exact ⟨_, rfl⟩
    · contradiction

theorem exists_ruleMark (o : PrintOptions) (frame : Option Frame) :
    ∃ r : RuleMark, Printer.ruleMark o frame = r.char := by
  unfold Printer.ruleMark
  split
  · exact ⟨o.rule, rfl⟩
  · dsimp only
    split
    · exact ⟨.underscore, rfl⟩
    · exact ⟨o.rule, rfl⟩

/-- A rule first in an item is not made of the item's bullet. -/
private theorem ruleMark_ne (o : PrintOptions) {mark : Char} (hmark : IsBullet mark) {f : Frame}
    (hkind : f.kind = .listItem) (hprevious : f.previous = none) (hsymbol : f.symbol = [mark]) :
    Printer.ruleMark o (some f) ≠ mark := by
  have hunder : '_' ≠ mark := by rcases hmark with rfl | rfl | rfl <;> decide
  unfold Printer.ruleMark
  dsimp only
  rw [hkind, hprevious, hsymbol]
  split
  · exact hunder
  · rename_i h
    rintro rfl
    exact h (by simp [Ne.symm hunder])

/-! ### Printing items -/

/-- Printing that succeeds outside of marked headings, with something of a kind, and stays outside of them. -/
def Prints {α : Type} (P : α → Prop) (x : Printing (Except Fault) α) : Prop :=
  ∀ pen : Pen, pen.around.after.Known → pen.atx = false →
    ∃ a pen', x pen = .ok (a, pen') ∧ pen'.around.after.Known ∧ pen'.atx = false ∧ P a

section

variable {α β : Type} {P : α → Prop} {Q : β → Prop} {x : Printing (Except Fault) α}

private theorem Yields.prints (h : Yields false P x) : Prints P x := by
  intro pen hafter hatx
  obtain ⟨a, pen', hrun, hafter', hatx', -, ha⟩ := h pen hafter hatx
  exact ⟨a, pen', hrun, hafter', hatx', ha⟩

private theorem Keeps.prints (h : Keeps x) : Prints (fun _ => True) x := by
  intro pen hafter hatx
  obtain ⟨a, pen', hrun, hafter', hatx', -⟩ := h pen hafter hatx
  exact ⟨a, pen', hrun, hafter', hatx', trivial⟩

private theorem prints_pure {a : α} (ha : P a) : Prints P (pure a) :=
  fun pen hafter hatx => ⟨a, pen, rfl, hafter, hatx, ha⟩

private theorem prints_bind {f : α → Printing (Except Fault) β} (hx : Prints P x) (hf : ∀ a, P a → Prints Q (f a)) :
    Prints Q (x >>= f) := by
  intro pen hafter hatx
  obtain ⟨a, pen', hrun, hafter', hatx', ha⟩ := hx pen hafter hatx
  obtain ⟨b, pen'', hrun', hafter'', hatx'', hb⟩ := hf a ha pen' hafter' hatx'
  exact ⟨b, pen'', (run_bind a pen' hrun).trans hrun', hafter'', hatx'', hb⟩

private theorem prints_enclosed (hx : Prints P x) : Prints P (Printer.enclosed x) := by
  intro pen hafter hatx
  obtain ⟨a, pen', hrun, hafter', hatx', ha⟩ := hx { pen with symbols := none :: pen.symbols } hafter hatx
  refine ⟨a, { pen' with symbols := pen'.symbols.tail }, ?_, hafter', hatx', ha⟩
  exact (run_bind () _ rfl).trans (run_bind a pen' hrun)

end

/-- A node as it is read, as far as the first lines of items depend on it. -/
structure Legible {α : Type} (t : Tree α) : Prop where
  composed : t.Composed
  neat : t.Neat
  flow : t.kind = .listItem → ∀ c ∈ t.children, c.kind.isFlow = true
  start : ∀ ordered start spread, t.content = .list ordered start spread →
    ordered = start.isSome ∧ ∀ n, start = some n → 0 ≤ n

theorem itemMarker_numeral {start : Option Int} (h : ∀ n, start = some n → 0 ≤ n) (symbol : Char) (index : Nat) :
    itemMarker start.isSome symbol ((start.map Value.int).getD .null) index =
      .ok (numeral (start.map (·.toNat + index)) ++ [symbol, ' ']) := by
  cases start with
  | none => rfl
  | some n =>
    obtain ⟨k, rfl⟩ := Int.eq_ofNat_of_zero_le (h n rfl)
    show Except.ok ((toString ((k : Int) + index)).toList ++ [symbol, ' ']) = _
    rw [← Int.natCast_add]
    show Except.ok ((k + index).repr.toList ++ [symbol, ' ']) = _
    rw [Nat.toList_repr]
    rfl

private theorem isListMark_markOf (o : PrintOptions) (ordered : Bool) : IsListMark ordered (markOf o ordered) := by
  cases ordered with
  | true => cases hmark : o.numberMark <;> simp [IsListMark, markOf, hmark, NumberMark.char]
  | false => cases hmark : o.bullet <;> simp [IsListMark, IsBullet, markOf, hmark, Bullet.char]

theorem isListMark_listSymbol (o : PrintOptions) (parent : Option Frame) (last : Option Char) (ordered : Bool) :
    IsListMark ordered (Printer.listSymbol o parent last (.bool ordered)) := by
  have hsymbol : Printer.listSymbol o parent last (.bool ordered) =
      if parent.any (·.afterList (.bool ordered)) && last == some (markOf o ordered) then otherMark o ordered
      else markOf o ordered := by
    cases ordered <;> rfl
  rw [hsymbol]
  split
  · cases ordered with
    | true => cases hmark : o.numberMark <;> simp [IsListMark, otherMark, hmark, NumberMark.char]
    | false => cases hmark : o.bullet <;> simp [IsListMark, IsBullet, otherMark, hmark, Bullet.char]
  · exact isListMark_markOf o ordered

variable (o : PrintOptions)

private theorem prints_listText (spread : Bool) {s : Scene} {ts : List (Tree (Option Position))} {symbol : Char}
    {ordered : Bool} {start : Option Int} {P : List (List Char) → Prop}
    (h : Prints P ((Printer.standard o).renderItems s { kind := .list, tight := !spread, symbol := [symbol] }
      (itemMarker ordered symbol ((start.map Value.int).getD .null)) 0 (Draft.ofTrees ts))) :
    Prints (fun x => ∃ texts, P texts ∧ x = join (if spread then ['\n', '\n'] else ['\n']) texts)
      (listText o s ts symbol ordered start spread) := by
  refine prints_bind (prints_enclosed h) fun texts htexts => prints_pure ⟨texts, htexts, ?_⟩
  cases spread <;> rfl

private theorem isMarkerText_first (start : Option Int) (index : Nat) :
    IsMarkerText (numeral (start.map (·.toNat + index))) (markOf o start.isSome) :=
  isMarkerText_numeral (by simpa using isListMark_markOf o start.isSome)

section

variable {mark : Char} (hmark : IsBullet mark) (s : Scene) {note : Option Position} {ts : List (Tree (Option Position))}
  (hneat : ∀ u ∈ Tree.preorderList ts, u.Neat) (hinline : ∀ u ∈ Tree.preorderList ts, u.kind.isInline = true)
include hmark hneat hinline

private theorem prints_paragraph (hnode : (Tree.node note .paragraph ts).Neat) :
    Prints (fun x => Breaks mark (firstLine x))
      ((Printer.standard o).render s (.ofTree (.node note .paragraph ts))) := by
  rw [render_paragraph]
  refine ((yields_inlineContent o hinline false s).mono fun x hx => ?_).prints
  have hfirst := (hnode.row (.inl rfl) true).1.first rfl
  exact breaks_of_firm hmark (hx.isFirm (hnode.nonempty (.inl rfl)) hneat hfirst)

private theorem prints_heading {depth : Int} (hnode : (Tree.node note (.heading depth) ts).Neat) (hdepth : 1 ≤ depth) :
    Prints (fun x => Breaks mark (firstLine x))
      ((Printer.standard o).render s (.ofTree (.node note (.heading depth) ts))) := by
  have hmarked : Prints (fun x => Breaks mark (firstLine x)) (markedHeading o s depth ts) := by
    refine ((yields_markedHeading o hinline s depth).mono ?_).prints
    rintro x ⟨content, -, rfl⟩
    obtain ⟨rest, hrest⟩ := exists_atxText o.closeAtx content (show depth.toNat ≠ 0 by omega)
    rw [hrest]
    exact breaks_of_cons hmark (by decide) rest
  rw [render_heading]
  split
  · rw [underlinedHeading]
    refine prints_bind (yields_inlineContent o hinline false s).prints fun content hwrites => ?_
    split
    · exact hmarked
    · rename_i hshows
      have hne : ts ≠ [] := by
        rintro rfl
        cases hwrites
        exact hshows rfl
      have hfirst := (hnode.row (.inr (.inl rfl)) true).1.first rfl
      refine prints_pure ?_
      rw [setextText, firstLine_newline]
      exact breaks_of_firm hmark (hwrites.isFirm hne hneat hfirst)
  · exact hmarked

end

/-- What stands first in an item and does not start with a list is no row of bullets. -/
private theorem prints_leaf {note : Option Position} {content : Content} {ts : List (Tree (Option Position))}
    (h : ∀ u ∈ (Tree.node note content ts).preorder, Legible u) (hflow : content.kind.isFlow = true)
    (hlist : content.kind ≠ .list) {mark : Char} (hmark : IsBullet mark) (s : Scene) {f : Frame}
    (hkind : f.kind = .listItem) (hprevious : f.previous = none) (hsymbol : f.symbol = [mark]) :
    Prints (fun x => Breaks mark (firstLine x))
      ((Printer.standard o).render (s.inside f) (.ofTree (.node note content ts))) := by
  obtain ⟨hnode, hchildren⟩ := Tree.forall_mem_preorder.1 h
  have hbelow : ∀ u ∈ Tree.preorderList ts, Legible u := Tree.forall_mem_preorderList.2 hchildren
  have hcomposed : ∀ u ∈ (Tree.node note content ts).preorder, u.Composed := fun u hu => (h u hu).composed
  have hneat : ∀ u ∈ Tree.preorderList ts, u.Neat := fun u hu => (hbelow u hu).neat
  cases content with
  | paragraph => exact prints_paragraph o hmark _ hneat (Tree.inline_below hcomposed (.inr (.inl rfl))) hnode.neat
  | heading depth =>
    exact prints_heading o hmark _ hneat (Tree.inline_below hcomposed (.inl rfl)) hnode.neat
      (hnode.composed.depth depth rfl)
  | thematicBreak =>
    have hne := ruleMark_ne o hmark hkind hprevious hsymbol
    obtain ⟨r, hr⟩ := exists_ruleMark o (some f)
    rw [hr] at hne
    rw [render_thematicBreak, show (s.inside f).current = some f from rfl, hr]
    refine prints_pure ?_
    cases r <;> exact breaks_of_mem (.head _) hne (by decide)
  | codeBlock value lang details =>
    obtain ⟨text, htext⟩ := codeBlockText_fields o.fence lang details value
    obtain ⟨c, rest, rfl, hc⟩ := exists_cons_of_codeBlockText htext
    rw [render_codeBlock o _ note ts htext]
    refine prints_pure (breaks_of_cons hmark ?_ rest)
    rcases hc with rfl | rfl <;> decide
  | blockQuote =>
    have hblocks := keeps_renderBlocks o ts (fun u hu => (hbelow u hu).composed) (s.inside f)
    have hcontainer : container? (Printer.markerFor o (s.inside f).current) .blockQuote = some _ := rfl
    rw [render_container o (s.inside f) note ts hcontainer]
    refine prints_bind (prints_enclosed (hblocks _).prints) fun rows _ => prints_pure ?_
    obtain ⟨rest, hrest⟩ := exists_cons_of_quoteText (join _ rows)
    rw [hrest]
    exact breaks_of_cons hmark (by decide) rest
  | list => exact absurd rfl hlist
  | _ => cases hflow

/-- The first line of a list is that of its first item. -/
private theorem isBlockLine_list {mark : Char} (hmark : IsBullet mark) {start : Option Int} {spread : Bool}
    {note : Option Position} {t : Tree (Option Position)} {ts : List (Tree (Option Position))}
    {texts : List (List Char)}
    (h : List.Forall₂ (fun item x => IsItemLine o.bullet.char (numeral (start.map (·.toNat + item.2)))
      (markOf o start.isSome) item.1.marks (firstLine x)) ((t :: ts).zipIdx 0) texts) :
    IsBlockLine o.bullet.char mark (firstLine (join (if spread then ['\n', '\n'] else ['\n']) texts))
      (Tree.node note (.list start.isSome start spread) (t :: ts)).marks := by
  rw [List.zipIdx_cons] at h
  cases h with
  | @cons _ x _ texts hx htexts =>
    have hfirst : firstLine (join (if spread then ['\n', '\n'] else ['\n']) (x :: texts)) = firstLine x := by
      cases spread <;> exact firstLine_join _ x texts
    obtain ⟨rest, hline, -, hbehind⟩ := hx
    rw [hfirst, hline]
    cases start with
    | none =>
      refine (hbehind rfl).isBlockLine ?_ mark
      cases o.bullet <;> decide
    | some n => exact breaks_numeral hmark _ _

private theorem prints_rows {P : List Char → Prop} (hP : ∀ x, P x → x ≠ []) {t : Tree (Option Position)}
    {ts : List (Tree (Option Position))} {s : Scene} {f : Frame}
    (ht : Prints P ((Printer.standard o).render (s.inside f) (.ofTree t)))
    (hts : ∀ u ∈ Tree.preorderList ts, Tree.Composed u) :
    Prints (fun rows => ∃ x rest, rows = x :: rest ∧ P x)
      ((Printer.standard o).renderBlocks s f (Draft.ofTrees (t :: ts))) := by
  rw [Draft.ofTrees, Printer.renderBlocks]
  refine prints_bind ht fun x hx => prints_bind (keeps_renderBlocks o ts hts _ _).prints fun rest _ => prints_pure ?_
  rw [if_neg (by simpa using hP x hx)]
  exact ⟨x, rest, rfl, hx⟩

mutual

/-- What stands first in an item with a bullet is printed as so many bullets, or as something that makes no rule of
them. -/
private theorem prints_block : ∀ (t : Tree (Option Position)), (∀ u ∈ t.preorder, Legible u) → t.kind.isFlow = true →
    ∀ {mark : Char} (_ : IsBullet mark) (s : Scene) {f : Frame} (_ : f.kind = .listItem) (_ : f.previous = none)
      (_ : f.symbol = [mark]), Prints (fun x => IsBlockLine o.bullet.char mark (firstLine x) t.marks)
        ((Printer.standard o).render (s.inside f) (.ofTree t))
  | .node note content children, h, hflow, mark, hmark, s, f, hkind, hprevious, hsymbol => by
    cases content with
    | list ordered start spread =>
      obtain ⟨hnode, hchildren⟩ := Tree.forall_mem_preorder.1 h
      obtain ⟨rfl, hstart⟩ := hnode.start _ _ _ rfl
      obtain ⟨hne, hitems⟩ := hnode.composed.items rfl
      have hfresh : Scene.Fresh (s.inside f) := by
        rintro g ⟨⟩
        exact hprevious
      intro pen hafter hatx
      rw [render_list, listSymbol_eq o hfresh]
      let symbol := markOf o start.isSome
      obtain ⟨x, pen', hrun, hafter', hatx', texts, htexts, rfl⟩ := prints_listText o spread
        (prints_items children (Tree.forall_mem_preorderList.2 hchildren) hitems (isMarkerText_first o start)
          (itemMarker_numeral hstart symbol) (s.inside f) rfl 0)
        (pen.withSymbol symbol) (by rwa [withSymbol_around]) (by rwa [withSymbol_atx])
      obtain ⟨t, ts, rfl⟩ := List.exists_cons_of_ne_nil hne
      exact ⟨_, pen', hrun, hafter', hatx', isBlockLine_list o hmark htexts⟩
    | root | frontMatter | listItem | text | emphasis | strong | inlineCode | link | image | lineBreak => cases hflow
    | _ => exact prints_leaf o h hflow (fun h => by cases h) hmark s hkind hprevious hsymbol

theorem prints_item : ∀ (t : Tree (Option Position)), (∀ u ∈ t.preorder, Legible u) → t.kind = .listItem →
    ∀ {number : List Char} {symbol : Char} (_ : IsMarkerText number symbol) (s : Scene) {f : Frame} (_ : f.kind = .list)
      (_ : f.marker = number ++ [symbol, ' ']),
      Prints (fun x => IsItemLine o.bullet.char number symbol t.marks (firstLine x))
        ((Printer.standard o).render (s.inside f) (.ofTree t))
  | .node note content children, h, hitem, number, symbol, hmarker, s, f, hkind, hf => by
    cases content with
    | listItem spread checked =>
      let inner : Frame :=
        { kind := .listItem, tight := !spread, lead := List.replicate (number ++ [symbol, ' ']).length ' ',
          symbol := trim (number ++ [symbol, ' ']) }
      have hcontainer : container? (Printer.markerFor o (s.inside f).current) (.listItem spread checked) =
          some (inner, itemText (number ++ [symbol, ' ']) (taskBox ((checked.map Value.bool).getD .null))) := by
        rw [show Printer.markerFor o (s.inside f).current = f.marker from if_pos hkind, hf]
        rfl
      rw [render_container o (s.inside f) note children hcontainer]
      obtain ⟨hnode, hchildren⟩ := Tree.forall_mem_preorder.1 h
      have hcomposed : ∀ u ∈ Tree.preorderList children, u.Composed :=
        Tree.forall_mem_preorderList.2 fun t ht u hu => (hchildren t ht u hu).composed
      by_cases hnumber : number = []
      · cases children with
        | nil =>
          rw [Draft.ofTrees, Printer.renderBlocks]
          refine prints_bind (prints_enclosed (prints_pure (P := (· = [])) rfl)) ?_
          rintro _ rfl
          exact prints_pure (isItemLine_nil hmarker checked _)
        | cons u us =>
          have hsymbol : inner.symbol = [symbol] := by
            show trim (number ++ [symbol, ' ']) = [symbol]
            rw [trim_marker hmarker.digits hmarker.mark, hnumber]
            rfl
          have hblock := prints_block u (hchildren u (.head _)) (hnode.flow rfl u (.head _)) (hmarker.bullet hnumber)
            (s.inside f) (f := inner) rfl rfl hsymbol
          have hrows := prints_rows o (fun x hx => IsBlockLine.ne_nil hx) hblock (List.forall_mem_append.1 hcomposed).2
          refine prints_bind (prints_enclosed hrows) ?_
          rintro _ ⟨x, rest, rfl, hx⟩
          obtain ⟨more, hmore⟩ := exists_separator inner
          rw [← firstLine_join more x rest, ← hmore] at hx
          exact prints_pure (isItemLine_of_ne_nil hmarker checked hx.ne_nil fun _ => hx)
      · refine prints_bind (prints_enclosed (keeps_renderBlocks o children hcomposed _ _).prints) fun rows _ => ?_
        exact prints_pure (isItemLine_of_number hmarker hnumber _ _ checked _)
    | _ => cases hitem

/-- The items of a list are printed with their markers, one after the other. -/
private theorem prints_items : ∀ (ts : List (Tree (Option Position))), (∀ u ∈ Tree.preorderList ts, Legible u) →
    (∀ t ∈ ts, t.kind = .listItem) → ∀ {number : Nat → List Char} {symbol : Char}
      (_ : ∀ k, IsMarkerText (number k) symbol) {marker : Nat → Except Fault (List Char)}
      (_ : ∀ k, marker k = .ok (number k ++ [symbol, ' '])) (s : Scene) {f : Frame} (_ : f.kind = .list) (index : Nat),
      Prints (List.Forall₂ (fun item x => IsItemLine o.bullet.char (number item.2) symbol item.1.marks (firstLine x))
        (ts.zipIdx index)) ((Printer.standard o).renderItems s f marker index (Draft.ofTrees ts))
  | [], _, _, number, symbol, _, marker, _, s, f, _, index => by
    rw [Draft.ofTrees, Printer.renderItems]
    exact prints_pure .nil
  | t :: ts, h, hitems, number, symbol, hnumber, marker, hmarker, s, f, hkind, index => by
    obtain ⟨ht, hts⟩ := List.forall_mem_append.1 h
    obtain ⟨hitem, hitems⟩ := List.forall_mem_cons.1 hitems
    rw [Draft.ofTrees, Printer.renderItems, hmarker, List.zipIdx_cons]
    refine prints_bind (prints_pure (P := (· = number index ++ [symbol, ' '])) rfl) ?_
    rintro _ rfl
    refine prints_bind (prints_item t ht hitem (hnumber index) s hkind rfl) fun x hx => ?_
    refine prints_bind (prints_items ts hts hitems hnumber hmarker _ (by exact hkind) (index + 1)) fun xs hxs => ?_
    exact prints_pure (.cons hx hxs)

end

/-! ### Scanned lists -/

/-- What was read stays legible without its positions. -/
theorem legible_of_scan {o : ScanOptions} {t : Tree Position} (hgrammatical : Grammatical o t) (hneat : t.Neat)
    {β : Type} (f : Position → β) : Legible (t.map f) := by
  refine ⟨((Tree.Thins.refl t).composed hgrammatical).map f, hneat.map f, fun hk => ?_, ?_⟩
  · rw [Tree.kind_map] at hk
    rw [Tree.children_map, List.forall_mem_map]
    intro c hc
    rw [Tree.kind_map]
    exact hgrammatical.container (.inr hk) c hc
  · intro ordered start spread hc
    rw [Tree.content_map] at hc
    obtain ⟨hordered, hstart⟩ := hgrammatical.start ordered start spread hc
    refine ⟨?_, fun n hn => (hstart n hn).1⟩
    rw [Bool.eq_iff_iff, hordered, Option.isSome_iff_ne_none]

theorem marks_map {α β : Type} (f : α → β) (t : Tree α) : (t.map f).marks = t.marks := by
  obtain ⟨note, content, children⟩ := t
  cases content with
  | list ordered start spread =>
    cases children with
    | nil => cases ordered <;> rfl
    | cons t ts =>
      cases ordered with
      | true => rfl
      | false => exact marks_map f t
  | listItem spread checked =>
    cases children with
    | nil => rfl
    | cons t ts =>
      show (if checked = none ∧ (t.map f).marks ≠ 0 then (t.map f).marks + 1 else 0) = _
      rw [marks_map f t]
      rfl
  | _ => rfl

end Print

open Print

/-- Each item of a list in a scanned tree is printed with a first line that is read as its marker, with the number that
the item has in its list.  The exceptions are items with numbers of more than nine digits, and items that consist of
three or more of the preferred bullets, in a list that has it and if it is no plus: these make a rule. -/
theorem scan_render_list (o : ScanOptions) (q : PrintOptions) (path : Option String) (text : String) :
    ∃ tree, (Scan.scan o path text).tree = some tree ∧ ∀ t ∈ tree.preorder, ∀ ordered start spread,
      t.content = .list ordered start spread → ∀ (s : Scene) (pen : Pen), pen.around.after.Known → pen.atx = false →
        ∃ texts pen', (Printer.standard q).render s (.ofTree (t.map fun _ => none)) pen =
            .ok (join (if spread then ['\n', '\n'] else ['\n']) texts, pen') ∧
          List.Forall₂ (fun item x => ReadsAsItem q.bullet.char
            (Printer.listSymbol q s.current pen.symbol? (.bool ordered)) (start.map (·.toNat + item.2)) item.1.marks
            (firstLine x)) t.children.zipIdx texts := by
  obtain ⟨tree, htree, -, hgrammatical, hneat⟩ := scan_neat o path text
  refine ⟨tree, htree, fun t ht ordered start spread hlist s pen hafter hatx => ?_⟩
  obtain ⟨note, content, children⟩ := t
  obtain rfl : content = .list ordered start spread := hlist
  let f : Position → Option Position := fun _ => none
  have hlegible : ∀ u ∈ ((Tree.node note (.list ordered start spread) children).map f).preorder, Legible u := by
    rw [Tree.preorder_map, List.forall_mem_map]
    intro u hu
    have hmem := Tree.mem_preorder_trans ht hu
    exact legible_of_scan (hgrammatical u hmem) (hneat u hmem) f
  obtain ⟨hnode, hbelow⟩ := Tree.forall_mem_preorder.1 hlegible
  obtain ⟨rfl, hstart⟩ := hnode.start _ _ _ rfl
  obtain ⟨-, hitems⟩ := hnode.composed.items rfl
  let symbol := Printer.listSymbol q s.current pen.symbol? (.bool start.isSome)
  have hsymbol := isListMark_listSymbol q s.current pen.symbol? start.isSome
  have hmarker (k : Nat) : IsMarkerText (numeral (start.map (·.toNat + k))) symbol :=
    isMarkerText_numeral (by simpa using hsymbol)
  obtain ⟨x, pen', hrun, -, -, texts, htexts, rfl⟩ := prints_listText q spread
    (prints_items q _ (Tree.forall_mem_preorderList.2 hbelow) hitems hmarker (itemMarker_numeral hstart symbol) s rfl 0)
    (pen.withSymbol symbol) (by rwa [withSymbol_around]) (by rwa [withSymbol_atx])
  refine ⟨texts, pen', (render_list q s _ _ _ start spread pen).trans hrun, ?_⟩
  rw [Tree.children_map, List.zipIdx_map, List.forall₂_map_left_iff] at htexts
  refine htexts.imp fun item x hx => ?_
  have hread := hx.readsAsItem (by cases q.bullet <;> decide) (by simpa using hsymbol)
  rwa [Prod.map_fst, Prod.map_snd, marks_map] at hread

/-- Behind a first item, an item with two lists nested in it is printed as three bullets, which hide its marker. -/
theorem scan_render_list_bullets :
    ∃ tree t texts pen', (Scan.scan {} none "- a\n- + *").tree = some tree ∧ t ∈ tree.preorder ∧
      t.children.map Tree.marks = [0, 3] ∧ (Printer.standard {}).render {} (.ofTree (t.map fun _ => none)) {} =
        .ok (join ['\n'] texts, pen') ∧
      List.Forall₂ (fun item x => ReadsAsItem '*' '*' none item.1.marks (firstLine x)) t.children.zipIdx texts := by
  obtain ⟨tree, htree, hlists⟩ := scan_render_list {} {} none "- a\n- + *"
  have hexists : ∃ t ∈ tree.preorder, t.content = .list false none false ∧ t.children.map Tree.marks = [0, 3] := by
    cases (tree_scan {} none "- a\n- + *").symm.trans htree
    decide +kernel
  obtain ⟨t, ht, hcontent, hmarks⟩ := hexists
  obtain ⟨texts, pen', hrun, htexts⟩ := hlists t ht _ _ _ hcontent {} {} ⟨false, rfl⟩ rfl
  exact ⟨tree, t, texts, pen', htree, ht, hmarks, hrun, htexts⟩

/-- Behind a first item the same makes an item whose first line is a rule. -/
theorem scan_printTree_item_rule :
    ∃ tree, (Scan.scan {} none "- a\n- + *").tree = some tree ∧
      tree.children.map (fun t => (t.kind, t.children.length)) = [(.list, 2)] ∧
      printTree {} tree = .ok "* a\n* * *\n".toList ∧ Marker.read? 4 ⟨"* * *".toList, 4⟩ = none ∧
      isRule "* * *".toList = true := by
  refine ⟨_, tree_scan {} none "- a\n- + *", ?_, ?_, ?_, ?_⟩
  · decide +kernel
  · exact eq_ok_of_toOption (by decide +kernel)
  · decide +kernel
  · decide +kernel

end MarkdownTree
