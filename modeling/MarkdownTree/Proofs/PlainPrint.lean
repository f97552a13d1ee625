import MarkdownTree.Proofs.CodeSpan
import MarkdownTree.Proofs.InlinePrint
import MarkdownTree.Proofs.Plain

/-!
# Plain text is printed line by line

What a printer does with one block it does in all holders, line by line (`printTree_heldDocument`).  So a block in holders
is read as what its lines are read as (`scan_printTree_held`), and a document of plain text comes back from its text
(`scan_printTree_plain`).
-/

namespace MarkdownTree.Print

open Text

/-- Printing that gives a result whatever the pen, in a marked heading or not. -/
def Gives {α : Type} (atx : Bool) (x : Printing (Except Fault) α) (a : α) : Prop :=
  ∀ pen : Pen, pen.atx = atx → ∃ pen', x pen = .ok (a, pen') ∧ pen'.atx = atx

section

variable {α β : Type} {atx : Bool}

private theorem gives_pure (a : α) : Gives atx (pure a) a :=
  fun pen hpen => ⟨pen, rfl, hpen⟩

theorem gives_bind {x : Printing (Except Fault) α} {a : α} {f : α → Printing (Except Fault) β} {b : β}
    (hx : Gives atx x a) (hf : Gives atx (f a) b) : Gives atx (x >>= f) b := by
  intro pen hpen
  obtain ⟨pen', hrun, hpen'⟩ := hx pen hpen
  obtain ⟨pen'', hrun', hpen''⟩ := hf pen' hpen'
  exact ⟨pen'', (run_bind a pen' hrun).trans hrun', hpen''⟩

private theorem gives_get {f : Pen → Printing (Except Fault) α} {a : α}
    (hf : ∀ pen : Pen, pen.atx = atx → Gives atx (f pen) a) :
    Gives atx (get >>= f) a :=
  fun pen hpen => hf pen hpen pen hpen

private theorem gives_change {f : Pen → Pen} (hf : ∀ pen : Pen, (f pen).atx = pen.atx) :
    Gives atx (Printer.change f) () :=
  fun pen hpen => ⟨f pen, rfl, (hf pen).trans hpen⟩

theorem gives_lift {x : Except Fault α} {a : α} (hx : x = .ok a) : Gives atx (Printer.lift x) a := by
  subst hx
  exact fun pen hpen => ⟨pen, rfl, hpen⟩

private theorem gives_enclosed {x : Printing (Except Fault) α} {a : α} (hx : Gives atx x a) :
    Gives atx (Printer.enclosed x) a :=
  gives_bind (gives_change fun _ => rfl) (gives_bind hx (gives_bind (gives_change fun _ => rfl) (gives_pure a)))

end

variable (o : PrintOptions)

private theorem gives_settle {atx : Bool} (s : Scene) {children : List Draft} (hids : emphasisIdsList children = .ok [])
    {attempt : Printing (Except Fault) (List Char)} {text : List Char} (h : Gives atx attempt text) :
    Gives atx ((Printer.standard o).settle s children attempt) text := by
  rw [Printer.settle]
  refine gives_bind h (gives_bind (gives_lift hids) (gives_get fun pen hpen => ?_))
  exact gives_pure text

private theorem render_text (s : Scene) (value : String) {pen : Pen} (hstart : pen.around.atLineStart = true)
    (hnext : pen.around.next = none) : (Printer.standard o).render s (.ofText value) pen =
      .ok (escape true pen.atx (if pen.atx then flatten value.toList else value.toList), pen) := by
  refine run_text o ?_
  rw [hstart, hnext]
  rfl

/-- The content of a leaf with one text, as it is printed in a scene. -/
abbrev textContent (s : Scene) (value : String) : Printing (Except Fault) (List Char) :=
  (Printer.standard o).settle s [.ofText value]
    ((Printer.standard o).renderInlines s none none .nothing true [.ofText value])

/-- The one text of a leaf starts a line, and nothing is next to it. -/
private theorem gives_textContent (atx : Bool) (s : Scene) (value : String) :
    Gives atx (textContent o s value) (escape true atx (if atx then flatten value.toList else value.toList)) := by
  refine gives_settle o s rfl fun pen hpen => ?_
  subst hpen
  refine ⟨{ pen with around := {} }, ?_, rfl⟩
  rw [Printer.renderInlines, run_bind (.nothing, none) pen rfl,
    run_bind () { pen with around := {} } rfl, run_bind _ _ (render_text o s value rfl rfl)]
  dsimp only
  rw [Printer.renderInlines]
  show Except.ok (_ ++ [], _) = _
  rw [List.append_nil]

/-! ### Leaves -/

/-- No sibling was printed before in the innermost container. -/
def Scene.Fresh (s : Scene) : Prop :=
  ∀ f ∈ s.current, f.previous = none

private theorem escape_eq_join (atx : Bool) (text : List Char) :
    escape true atx text = join ['\n'] ((fields '\n' text).map (Scan.escapeLine atx)) := by
  rw [escape, Scan.escapeLines_eq_map]

private theorem breaksLine_ofText (value : String) : breaksLine (.ofText value) = .ok (value.toList.contains '\n') := by
  show (if value.toList.contains '\n' then pure true else .ok false : Except Fault Bool) = _
  cases value.toList.contains '\n' <;> rfl

private theorem isUnderlined_ofText {frame : Option Frame} (hframe : ∀ f ∈ frame, f.previous = none) (depth : Nat)
    (value : String) :
    Printer.isUnderlined o frame (.int depth) [.ofText value] = .ok (Leaf.isUnderlined o depth value.toList) := by
  have hbreaks : breaksLineList [.ofText value] = .ok (value.toList.contains '\n') := by
    rw [breaksLineList, breaksLine_ofText]
    cases value.toList.contains '\n' <;> rfl
  have hbelow : frame.any Frame.belowParagraph = false := by
    cases frame with
    | none => rfl
    | some f => simp [Frame.belowParagraph, hframe f rfl]
  rw [Printer.isUnderlined, hbreaks]
  show Except.ok ((Size.ofInt depth).upTo (.ofInt 2) && (o.setext || value.toList.contains '\n') &&
    !frame.any Frame.belowParagraph) = _
  rw [Size.upTo_ofInt, hbelow, Leaf.isUnderlined, Bool.not_false, Bool.and_true,
    decide_eq_decide.2 (by omega : (depth : Int) ≤ 2 ↔ depth ≤ 2)]

private theorem exists_join {lines : List (List Char)} (h : IsInner lines) :
    ∃ c cs, join ['\n'] lines = c :: cs ∧ isBlank c = false := by
  obtain ⟨c, cs, rest, rfl, hc, -⟩ := h.head
  cases rest with
  | nil => exact ⟨c, cs, rfl, hc⟩
  | cons next rest => exact ⟨c, _, join_cons_cons _ _ _, hc⟩

private theorem same_int (m n : Int) : (Value.int m).same (.int n) = Decidable.decide (m = n) := by
  rw [Bool.eq_iff_iff]
  simp [Value.same, Value.sameNumber, Value.size?, Size.same, Size.ofInt]

private theorem setextText_eq {lines : List (List Char)} (hne : lines ≠ []) (depth : Nat) :
    setextText (.int depth) (join ['\n'] lines) =
      join ['\n'] (lines ++ [List.replicate 3 (if depth = 1 then '=' else '-')]) := by
  simp [setextText, same_int, join_concat hne]

theorem atxText_eq {content : List Char} (hne : content ≠ []) (depth : Nat) :
    atxText o.closeAtx (List.replicate depth '#') content =
      List.replicate depth '#' ++ ' ' :: (content ++ Leaf.closing o depth) := by
  simp [atxText, Leaf.closing, hne]

def printed (t : Tree Unit) : Draft :=
  .ofTree (t.map fun _ => none)

private theorem gives_lines (s : Scene) (value : String) :
    Gives false (textContent o s value)
      (join ['\n'] ((fields '\n' value.toList).map (Scan.escapeLine false))) := by
  rw [← escape_eq_join]
  exact gives_textContent o false s value

private theorem gives_title (s : Scene) {value : String} (hnewline : '\n' ∉ value.toList) :
    Gives true (textContent o s value) (Scan.escapeLine true value.toList) := by
  have h := gives_textContent o true s value
  rwa [if_pos rfl, flatten_eq hnewline, escape_eq_join, fields_of_notMem hnewline] at h

private theorem gives_leaf {s : Scene} (hs : s.Fresh) {leaf : Leaf} {text : String} (hholds : leaf.Holds text.toList)
    (htext : ∀ line ∈ fields '\n' text.toList, Scan.IsTrimmed line) :
    Gives false ((Printer.standard o).render s (printed (leaf.tree text)))
      (join ['\n'] (leaf.lines o text.toList)) := by
  cases leaf with
  | paragraph =>
    rw [show printed (Leaf.paragraph.tree text) = .node .paragraph [] none [.ofText text] none from rfl, Printer.render]
    exact gives_bind (gives_lift rfl) (gives_lines o s text)
  | heading depth =>
    rw [show printed ((Leaf.heading depth).tree text) = .node .heading [("depth", .int depth)] none [.ofText text] none
      from rfl, Printer.render, Leaf.lines]
    refine gives_bind (gives_lift rfl) (gives_bind (gives_lift (isUnderlined_ofText o hs depth text)) ?_)
    split
    · obtain ⟨c, cs, hcontent, hc⟩ := exists_join (isBlock_leaf htext o .paragraph trivial).inner
      refine gives_bind (gives_lines o s text) ?_
      dsimp only
      rw [if_neg]
      · rw [← setextText_eq (by simpa using fields_ne_nil '\n' text.toList)]
        exact gives_pure _
      · rw [Leaf.lines] at hcontent
        rw [hcontent, List.isEmpty_iff]
        exact trim_ne_nil (List.all_eq_false.2 ⟨c, .head _, by simp [hc]⟩)
    · rename_i hmarked
      have hnewline := Leaf.newline_notMem hholds hmarked
      -- Only here is a marked heading printed, from a pen for none and back to such a pen.
      intro pen hpen
      obtain ⟨pen', hrun, -⟩ := gives_title o s hnewline { pen with atx := true } rfl
      refine ⟨{ pen' with atx := false }, ?_, rfl⟩
      rw [run_bind [] pen rfl]
      dsimp only
      rw [if_pos (by rfl), run_bind () { pen with atx := true } rfl, run_bind _ pen' hrun,
        run_bind () { pen' with atx := false } rfl,
        run_bind (List.replicate depth '#') { pen' with atx := false } rfl]
      show Except.ok (atxText o.closeAtx _ _, _) = _
      rw [atxText_eq o (isProse_title htext hnewline).ne_nil]
      rfl

/-! ### Holders -/

private theorem quoteText_eq {inner : List (List Char)} (h : IsInner inner) :
    quoteText (join ['\n'] inner) = join ['\n'] (inner.map Scan.quoteLine) := by
  obtain ⟨c, cs, hjoin, -⟩ := exists_join h
  rw [quoteText, if_neg (by simp [hjoin]), fields_join h.ne_nil fun line hline => (h.plain line hline).1]
  rfl

private theorem itemText_eq {inner : List (List Char)} (h : IsInner inner) (number : Option Nat)
    (checked : Option Bool) :
    itemText (Holder.mark o number ++ [' ']) (Holder.box checked) (join ['\n'] inner) =
      join ['\n'] ((Holder.item number checked).lines o inner) := by
  obtain ⟨c, cs, hjoin, -⟩ := exists_join h
  rw [itemText, if_neg (by simp [hjoin]), fields_join h.ne_nil fun line hline => (h.plain line hline).1]
  obtain ⟨line, rest, rfl⟩ := List.exists_cons_of_ne_nil h.ne_nil
  dsimp only
  rw [Holder.lines, List.length_append, List.append_assoc, List.append_assoc]
  rfl

def startValue (number : Option Nat) : Value :=
  ((number.map fun n => (n : Int)).map Value.int).getD .null

private theorem itemMarker_eq (number : Option Nat) :
    itemMarker number.isSome (if number.isSome then o.numberMark.char else o.bullet.char) (startValue number) 0 =
      .ok (Holder.mark o number ++ [' ']) := by
  cases number with
  | none => rfl
  | some n =>
    show Except.ok ((toString ((n : Int) + (0 : Nat))).toList ++ [o.numberMark.char, ' ']) = _
    rw [Holder.mark, List.append_assoc]
    rfl

theorem listSymbol_eq {s : Scene} (hs : s.Fresh) (last : Option Char) (ordered : Bool) :
    Printer.listSymbol o s.current last (.bool ordered) = if ordered then o.numberMark.char else o.bullet.char := by
  have hafter : s.current.any (·.afterList (.bool ordered)) = false := by
    cases hf : s.current with
    | none => rfl
    | some f => simp [Frame.afterList, hs f hf]
  unfold Printer.listSymbol
  rw [hafter]
  rfl

private theorem gives_renderBlocks {s : Scene} {f : Frame} {t : Draft} {text : List Char} (hne : text ≠ [])
    (ht : Gives false ((Printer.standard o).render (s.inside f) t) text) :
    Gives false ((Printer.standard o).renderBlocks s f [t]) [text] := by
  rw [Printer.renderBlocks]
  refine gives_bind ht ?_
  rw [Printer.renderBlocks]
  refine gives_bind (gives_pure []) ?_
  rw [if_neg (by simpa using hne)]
  exact gives_pure _

private theorem gives_renderItems {s : Scene} {f : Frame} {marker : Nat → Except Fault (List Char)} {mark : List Char}
    (hmark : marker 0 = .ok mark) {t : Draft} {text : List Char}
    (ht : Gives false ((Printer.standard o).render (s.inside { f with marker := mark }) t) text) :
    Gives false ((Printer.standard o).renderItems s f marker 0 [t]) [text] := by
  rw [Printer.renderItems]
  refine gives_bind (gives_lift hmark) (gives_bind ht ?_)
  rw [Printer.renderItems]
  exact gives_bind (gives_pure []) (gives_pure _)

private theorem gives_list {s : Scene} (hs : s.Fresh) (number : Option Nat) {fields : List Field}
    (hordered : fieldOf fields "ordered" = .bool number.isSome) (hstart : fieldOf fields "start" = startValue number)
    (hchildren : Printer.checkBelow .list fields = .ok ()) {t : Draft} {text : List Char}
    (ht : ∀ f : Frame, f.kind = .list → f.marker = Holder.mark o number ++ [' '] →
      Gives false ((Printer.standard o).render (s.inside f) t) text) :
    Gives false ((Printer.standard o).render s (.node .list fields none [t] none)) text := by
  rw [Printer.render]
  refine gives_bind (gives_lift hchildren) (gives_get fun pen _ => ?_)
  dsimp only
  rw [hordered, hstart, show (Printer.standard o).options = o from rfl, listSymbol_eq o hs]
  refine gives_bind (gives_change fun pen => ?_) ?_
  · unfold Pen.withSymbol
    split <;> rfl
  -- The scene of the item has the list as its innermost container, with the marker that was made for the item.
  · exact gives_bind (gives_enclosed (gives_renderItems o (itemMarker_eq o number) (ht _ rfl rfl))) (gives_pure _)

section

variable {inner : List (List Char)} (hinner : IsInner inner) {t : Tree Unit}
  (ht : ∀ s : Scene, s.Fresh → Gives false ((Printer.standard o).render s (printed t)) (join ['\n'] inner))
include hinner ht

private theorem gives_inside (s : Scene) {f : Frame} (hf : f.previous = none) :
    Gives false (Printer.enclosed ((Printer.standard o).renderBlocks s f [printed t])) [join ['\n'] inner] := by
  obtain ⟨c, cs, hjoin, -⟩ := exists_join hinner
  refine gives_enclosed (gives_renderBlocks o (by simp [hjoin]) (ht _ ?_))
  rintro g ⟨⟩
  exact hf

private theorem gives_holder {s : Scene} (hs : s.Fresh) (h : Holder) :
    Gives false ((Printer.standard o).render s (printed (h.around t))) (join ['\n'] (h.lines o inner)) := by
  cases h with
  | quote =>
    rw [show printed (Holder.quote.around t) = .node .blockQuote [] none [printed t] none from rfl, Printer.render,
      Holder.lines, ← quoteText_eq hinner]
    exact gives_bind (gives_lift rfl) (gives_bind (gives_inside o hinner ht s rfl) (gives_pure _))
  | item number checked =>
    refine gives_list o hs number rfl rfl rfl fun f hkind hmarker => ?_
    have hmark : Printer.markerFor o (s.inside f).current = Holder.mark o number ++ [' '] :=
      (if_pos hkind).trans hmarker
    rw [← itemText_eq o hinner, ← hmark]
    show Gives false ((Printer.standard o).render (s.inside f)
      (.node .listItem (Content.listItem false checked).fields none [printed t] none)) _
    rw [Printer.render]
    exact gives_bind (gives_lift rfl) (gives_bind (gives_inside o hinner ht _ rfl) (gives_pure _))

private theorem gives_holders {holders : List Holder} (hnumbers : ∀ h ∈ holders, h.Numbered) {s : Scene}
    (hs : s.Fresh) :
    Gives false ((Printer.standard o).render s (printed (holders.foldr (fun h t => h.around t) t)))
      (join ['\n'] (heldLines o holders inner)) := by
  induction holders generalizing s with
  | nil => exact ht s hs
  | cons h holders ih =>
    obtain ⟨-, hnumbers⟩ := List.forall_mem_cons.1 hnumbers
    exact gives_holder o (isInner_holders o hnumbers hinner) (fun s hs => ih hnumbers hs) hs h

/-- Printing a block in holders gives its lines as they stand in them. -/
theorem printTree_heldDocument {holders : List Holder} (hnumbers : ∀ h ∈ holders, h.Numbered) :
    printTree o (heldDocument holders t) = .ok (join ['\n'] (heldLines o holders inner) ++ ['\n']) := by
  have hheld := isInner_holders o hnumbers hinner
  have hinside := gives_inside o hheld (fun s hs => gives_holders o hinner ht hnumbers hs) {}
    (f := { kind := .root }) rfl
  have hroot : Gives false ((Printer.standard o).render {} (printed (heldDocument holders t)))
      (join ['\n'] (heldLines o holders inner)) := by
    rw [show printed (heldDocument holders t) = .node .root [] none
      [printed (holders.foldr (fun h t => h.around t) t)] none from rfl, Printer.render]
    exact gives_bind (gives_lift rfl) (gives_bind hinside (gives_pure _))
  obtain ⟨pen, hrun, -⟩ := hroot {} rfl
  obtain ⟨c, cs, hjoin, -⟩ := exists_join hheld
  show (((Printer.standard o).render {} (printed (heldDocument holders t)) {} >>= fun p => pure p.1) >>=
    fun text => pure (if text.isEmpty then [] else text ++ ['\n'])) = Except.ok _
  rw [hrun]
  show Except.ok (if _ then _ else _) = _
  rw [if_neg (by simp [hjoin])]

end

end MarkdownTree.Print

namespace MarkdownTree

open Scan Print Text

/-- Printing a document of plain text gives its lines. -/
private theorem printTree_plainDocument (o : PrintOptions) {leaf : Leaf} {text : String}
    (hholds : leaf.Holds text.toList)
    (htext : ∀ line ∈ fields '\n' text.toList, IsTrimmed line) {holders : List Holder}
    (hnumbers : ∀ h ∈ holders, h.Numbered) :
    printTree o (plainDocument holders leaf text) =
      .ok (join ['\n'] (plainLines o holders leaf text.toList) ++ ['\n']) :=
  printTree_heldDocument o (isBlock_leaf htext o leaf hholds).inner (fun _ hs => gives_leaf o hs hholds htext) hnumbers

private theorem text_linesOf_inner {lines : List (List Char)} (h : IsInner lines) :
    (linesOf (join ['\n'] lines ++ ['\n'])).map Line.text = lines :=
  text_linesOf_join h.ne_nil (fun line hline => (h.plain line hline).1) (fun line hline => if_neg (h.plain line hline).2)
    (.inl rfl)

/-- A block that is printed as some lines, and lines that read as a block wherever they stand: in holders it is the
document with the one that is printed, and with the other that it is read as. -/
theorem scan_printTree_held {α : Type} (o : ScanOptions) (q : PrintOptions) (path : Option String) {t : Tree α}
    {holders : List Holder} {said heard : Tree Unit} {inner : List (List Char)} (hinner : IsInner inner)
    (hsaid : ∀ s : Scene, s.Fresh → Gives false ((Printer.standard q).render s (printed said)) (join ['\n'] inner))
    (hheard : ∀ room inItem (ls : List Line), ls.map Line.text = inner →
      (readBlocks o room inItem ls).trees.map Tree.erase = [heard] ∧ (readBlocks o room inItem ls).loose = false)
    (ht : t.erase = heldDocument holders said) (hdepth : holders.length ≤ o.maxNesting)
    (hnumbers : ∀ h ∈ holders, h.Numbered) :
    ∃ printed u, printTree q t = .ok printed ∧ (Scan.scan o path (.ofList printed)).tree = some u ∧
      u.erase = heldDocument holders heard := by
  have hheld := isInner_holders q hnumbers hinner
  have hlines := text_linesOf_inner hheld
  have hprinted : printTree q t = .ok (join ['\n'] (heldLines q holders inner) ++ ['\n']) := by
    rw [← printTree_heldDocument q hinner hsaid hnumbers]
    exact printTree_congr q (by rw [← ht]; exact (Tree.erase_map _ t).symm)
  have hsplit : splitDocument o.frontMatter (join ['\n'] (heldLines q holders inner) ++ ['\n']) =
      ([], linesOf (join ['\n'] (heldLines q holders inner) ++ ['\n'])) := by
    obtain ⟨c, cs, rest, hhead, -, -, x, hx, hmark⟩ := hheld.head
    exact splitDocument_of_head (hlines.trans hhead) (opensFrontMatter_eq_false_of_mem hx hmark)
  obtain ⟨u, hu, huerase⟩ := exists_scan o path (.ofList (join ['\n'] (heldLines q holders inner) ++ ['\n']))
    (by rw [String.toList_ofList]; exact hsplit)
  refine ⟨_, u, hprinted, hu, ?_⟩
  rw [huerase, (readBlocks_holders o q hinner hheard hnumbers hdepth false hlines).1, heldDocument]

/-- Plain text in quotes and lists of one item comes back from what is printed for it, with all settings of the printer,
as long as so many containers may be nested. -/
theorem scan_printTree_plain {α : Type} (o : ScanOptions) (q : PrintOptions) (path : Option String) {t : Tree α}
    {holders : List Holder} {leaf : Leaf} {text : String} (ht : t.erase = plainDocument holders leaf text)
    (hdepth : holders.length ≤ o.maxNesting) (hnumbers : ∀ h ∈ holders, h.Numbered) (hholds : leaf.Holds text.toList)
    (htext : ∀ line ∈ fields '\n' text.toList, IsTrimmed line) :
    ∃ printed u, printTree q t = .ok printed ∧ (Scan.scan o path (.ofList printed)).tree = some u ∧
      u.erase = t.erase := by
  have hread (room : Nat) (inItem : Bool) (ls : List Line) (hls : ls.map Line.text = leaf.lines q text.toList) :
      (readBlocks o room inItem ls).trees.map Tree.erase = [leaf.tree text] ∧
        (readBlocks o room inItem ls).loose = false := by
    have h := readBlocks_leaf htext o q room inItem hholds hls
    rwa [String.ofList_toList] at h
  obtain ⟨printed, u, hprinted, hu, huerase⟩ := scan_printTree_held o q path (isBlock_leaf htext q leaf hholds).inner
    (fun s hs => gives_leaf q hs hholds htext) hread ht hdepth hnumbers
  exact ⟨printed, u, hprinted, hu, huerase.trans ht.symm⟩

/-- A heading that says a number and a mark, in a checked item with the number seven, in a quote. -/
theorem scan_printTree_plain_heading :
    let t := plainDocument [.quote, .item (some 7) (some true)] (.heading 2) "1. a\n# *b*"
    ∃ u, printTree {} t = .ok "> 7. [x] 1\\. a\n>    \\# \\*b\\*\n>    ---\n".toList ∧
      (Scan.scan {} none "> 7. [x] 1\\. a\n>    \\# \\*b\\*\n>    ---\n").tree = some u ∧ u.erase = t.erase := by
  intro t
  have hnumbers : ∀ h ∈ [Holder.quote, .item (some 7) (some true)], h.Numbered := by decide
  have hholds : (Leaf.heading 2).Holds "1. a\n# *b*".toList := by decide
  have htext : ∀ line ∈ fields '\n' "1. a\n# *b*".toList, IsTrimmed line := by decide +kernel
  obtain ⟨printed, u, hprinted, hu, huerase⟩ :=
    scan_printTree_plain {} {} none (t := t) rfl (by decide) hnumbers hholds htext
  have hlines : join ['\n'] (plainLines {} [.quote, .item (some 7) (some true)] (.heading 2) "1. a\n# *b*".toList) ++
      ['\n'] = "> 7. [x] 1\\. a\n>    \\# \\*b\\*\n>    ---\n".toList := by decide +kernel
  have htree := printTree_plainDocument {} hholds htext hnumbers
  rw [hlines] at htree
  obtain rfl := Except.ok.inj (htree.symm.trans hprinted)
  rw [String.ofList_toList] at hu
  exact ⟨u, htree, hu, huerase⟩

end MarkdownTree
