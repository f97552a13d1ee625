import MarkdownTree.Print.Leaf
import MarkdownTree.Proofs.Prose

/-!
# Plain text in containers

Plain text, as a paragraph or a heading, stands in quotes and lists of one item, one in the other.  The lines that are
written for such a document (`Holder.lines`, `Leaf.lines`) are read as the document again: this is so for the leaf
(`readBlocks_leaf`), and one more container changes nothing about it (`readBlocks_holder`).  What carries the induction
is that the lines start with something that opens no other block behind a list marker, and that the last one is not blank
(`IsInner`).
-/

namespace MarkdownTree

open Text Print Scan

/-- What holds one block: a quote, or a list of one item, with its number if it has one and its task state. -/
inductive Holder where
  | quote
  | item (number : Option Nat) (checked : Option Bool)
deriving DecidableEq, Repr

/-- A block of plain text. -/
inductive Leaf where
  | paragraph
  | heading (depth : Nat)
deriving DecidableEq, Repr

namespace Holder

/-- The holder around a block. -/
def around (t : Tree Unit) : Holder → Tree Unit
  | quote => .node () .blockQuote [t]
  | item number checked =>
    .node () (.list number.isSome (number.map fun n => (n : Int)) false) [.node () (.listItem false checked) [t]]

/-- The number of a list can be written with nine digits. -/
def Numbered : Holder → Prop
  | quote => True
  | item number _ => ∀ n ∈ number, n ≤ 999999999

instance : DecidablePred Numbered
  | quote => inferInstanceAs (Decidable True)
  | item number _ => inferInstanceAs (Decidable (∀ n ∈ number, n ≤ 999999999))

def mark (o : PrintOptions) : Option Nat → List Char
  | none => [o.bullet.char]
  | some n => (toString n).toList ++ [o.numberMark.char]

def box (checked : Option Bool) : List Char :=
  taskBox ((checked.map Value.bool).getD .null)

/-- The lines of a holder around a block with the given lines. -/
def lines (o : PrintOptions) (inner : List (List Char)) : Holder → List (List Char)
  | quote => inner.map quoteLine
  | item number checked =>
    match inner with
    | [] => []
    | line :: rest =>
      (mark o number ++ ' ' :: (box checked ++ line)) :: rest.map (indentLine ((mark o number).length + 1))

end Holder

namespace Leaf

/-- The leaf with a text. -/
def tree (text : String) : Leaf → Tree Unit
  | paragraph => .node () .paragraph [.node () (.text text) []]
  | heading depth => .node () (.heading depth) [.node () (.text text) []]

/-- The leaf can hold the text: headings of some depth have one line. -/
def Holds (text : List Char) : Leaf → Prop
  | paragraph => True
  | heading depth => 1 ≤ depth ∧ depth ≤ 6 ∧ (3 ≤ depth → '\n' ∉ text)

instance (text : List Char) : DecidablePred (Holds text)
  | paragraph => inferInstanceAs (Decidable True)
  | heading depth => inferInstanceAs (Decidable (1 ≤ depth ∧ depth ≤ 6 ∧ (3 ≤ depth → '\n' ∉ text)))

def isUnderlined (o : PrintOptions) (depth : Nat) (text : List Char) : Bool :=
  depth ≤ 2 && (o.setext || text.contains '\n')

def closing (o : PrintOptions) (depth : Nat) : List Char :=
  if o.closeAtx then ' ' :: List.replicate depth '#' else []

/-- The lines of the leaf with a text. -/
def lines (o : PrintOptions) (text : List Char) : Leaf → List (List Char)
  | paragraph => (fields '\n' text).map (escapeLine false)
  | heading depth =>
    if isUnderlined o depth text then
      (fields '\n' text).map (escapeLine false) ++ [List.replicate 3 (if depth = 1 then '=' else '-')]
    else
      [List.replicate depth '#' ++ ' ' :: (escapeLine true text ++ closing o depth)]

end Leaf

/-- A document of one block in holders, the outermost of which comes first. -/
def heldDocument (holders : List Holder) (t : Tree Unit) : Tree Unit :=
  .node () .root [holders.foldr (fun h t => h.around t) t]

/-- The lines of holders around a block with the given lines. -/
def heldLines (o : PrintOptions) (holders : List Holder) (inner : List (List Char)) : List (List Char) :=
  holders.foldr (fun h inner => h.lines o inner) inner

/-- A document of plain text in holders. -/
def plainDocument (holders : List Holder) (leaf : Leaf) (text : String) : Tree Unit :=
  heldDocument holders (leaf.tree text)

/-- The lines of holders around plain text. -/
def plainLines (o : PrintOptions) (holders : List Holder) (leaf : Leaf) (text : List Char) : List (List Char) :=
  heldLines o holders (leaf.lines o text)

private theorem Holder.around_injective (h : Holder) : Function.Injective h.around := by
  intro s t hst
  cases h with
  | quote =>
    injection hst with _ _ hst
    exact List.head_eq_of_cons_eq hst
  | item number checked =>
    injection hst with _ _ hst
    injection List.head_eq_of_cons_eq hst with _ _ hst
    exact List.head_eq_of_cons_eq hst

theorem heldDocument_injective (holders : List Holder) : Function.Injective (heldDocument holders) := by
  intro s t hst
  injection hst with _ _ hst
  replace hst := List.head_eq_of_cons_eq hst
  induction holders with
  | nil => exact hst
  | cons h holders ih => exact ih (h.around_injective hst)

/-! ### Markers -/

private theorem digitValue?_of_isDigit {c : Char} (h : c.isDigit = true) :
    digitValue? c = some (c.toNat - '0'.toNat) := by
  have hrange : 48 ≤ c.toNat ∧ c.toNat ≤ 57 := by
    simpa [Char.isDigit, UInt32.le_iff_toNat_le] using h
  have hlow : decide (48 ≤ c.toNat) = true := decide_eq_true hrange.1
  have hhigh : decide (c.toNat < 48 + 10) = true := decide_eq_true (by omega)
  rw [digitValue?, zeros, List.find?_cons, hlow, hhigh]
  rfl

theorem isDigit_toDigits {n : Nat} {c : Char} (h : c ∈ Nat.toDigits 10 n) : isDigit c = true := by
  rw [isDigit, digitValue?_of_isDigit (Nat.isDigit_of_mem_toDigits (by decide) (by decide) h)]
  rfl

theorem natOfDigits_toDigits (n : Nat) : natOfDigits (Nat.toDigits 10 n) = n := by
  have hdigits : ∀ ds : List Char, (∀ c ∈ ds, c.isDigit = true) → natOfDigits ds = Nat.ofDigitChars 10 ds 0 := by
    intro ds h
    rw [natOfDigits, Nat.ofDigitChars_eq_foldl]
    refine List.foldl_ext _ _ _ fun k c hc => ?_
    rw [digitValue?_of_isDigit (h c hc), Option.getD_some]
  rw [hdigits _ fun c hc => Nat.isDigit_of_mem_toDigits (by decide) (by decide) hc, Nat.ofDigitChars_ten_toDigits]

theorem isMarker_toDigits {n : Nat} (h : n ≤ 999999999) {d : Char} (hd : d = '.' ∨ d = ')') :
    IsMarker (Nat.toDigits 10 n ++ [d]) (some n) := by
  have hdigits : ∀ c ∈ Nat.toDigits 10 n, isDigit c = true := fun c hc => isDigit_toDigits hc
  have hlen : (Nat.toDigits 10 n).length ≤ 9 :=
    (Nat.length_toDigits_le_iff (by decide) (by decide)).2 (Nat.lt_succ_of_le h)
  conv => arg 2; rw [← natOfDigits_toDigits n]
  exact .ordered (List.ne_nil_of_length_pos Nat.length_toDigits_pos) hlen hdigits hd

private theorem Holder.isMarker_mark (o : PrintOptions) {number : Option Nat} (h : ∀ n ∈ number, n ≤ 999999999) :
    IsMarker (mark o number) number := by
  cases number with
  | none => exact .bullet (by cases o.bullet <;> simp [Bullet.char])
  | some n =>
    have hmark : mark o (some n) = Nat.toDigits 10 n ++ [o.numberMark.char] := by
      rw [mark, ← Nat.toList_repr]
      rfl
    rw [hmark]
    exact isMarker_toDigits (h n rfl) (by cases o.numberMark <;> simp [NumberMark.char])

/-! ### Lines of one block -/

/-- The characters that rules are made of. -/
def ruleMarks : List Char :=
  ['-', '*', '_', ' ', '\t']

/-- Lines that read alike behind the marks of containers: the first opens the same block wherever it stands, and none
ends with a blank. -/
structure IsBlock (lines : List (List Char)) : Prop where
  -- With a character that makes no rule, the line makes none behind a list marker either, as "* -" would behind a star.
  head : ∃ c cs rest, lines = (c :: cs) :: rest ∧ isBlank c = false ∧ c ≠ '[' ∧ ∃ x ∈ c :: cs, x ∉ ruleMarks
  ends : ∀ line ∈ lines, '\n' ∉ line ∧ ∃ c ∈ line.getLast?, isBlank c = false

/-- Lines that containers can hold: lines of a text that say the same behind the marks of containers, the last of which
is not blank. -/
structure IsInner (lines : List (List Char)) : Prop where
  head : ∃ c cs rest, lines = (c :: cs) :: rest ∧ isBlank c = false ∧ c ≠ '[' ∧ ∃ x ∈ c :: cs, x ∉ ruleMarks
  plain : ∀ line ∈ lines, '\n' ∉ line ∧ line.getLast? ≠ some '\r'
  last : ∀ line ∈ lines.getLast?, line.all isBlank = false

private theorem isRule_eq_false_of_mem {line : List Char} {x : Char} (hx : x ∈ line) (hmark : x ∉ ruleMarks) :
    isRule line = false := by
  cases line with
  | nil => rfl
  | cons c cs =>
    simp only [ruleMarks, List.mem_cons, List.not_mem_nil, or_false, not_or] at hmark
    obtain ⟨hhyphen, hstar, hunder, hspace, htab⟩ := hmark
    refine Bool.eq_false_iff.2 fun hrule => ?_
    unfold isRule at hrule
    simp only [Bool.and_eq_true, Bool.or_eq_true, beq_iff_eq, List.all_eq_true] at hrule
    obtain ⟨⟨hc, hall⟩, -⟩ := hrule
    have hxc : x = c := by
      rcases List.mem_cons.1 hx with hx | hx
      · exact hx
      · rcases hall x hx with hx | hx
        · exact hx
        · simp [isGap, hspace, htab] at hx
    subst hxc
    rcases hc with (hc | hc) | hc
    · exact hhyphen hc
    · exact hstar hc
    · exact hunder hc

theorem opensFrontMatter_eq_false_of_mem {line : List Char} {x : Char} (hx : x ∈ line) (hmark : x ∉ ruleMarks) :
    opensFrontMatter line = false := by
  simp only [ruleMarks, List.mem_cons, List.not_mem_nil, or_false, not_or] at hmark
  obtain ⟨hhyphen, -, -, hspace, htab⟩ := hmark
  refine Bool.eq_false_iff.2 fun hopens => ?_
  unfold opensFrontMatter at hopens
  rw [Bool.and_eq_true, List.isPrefixOf_iff_prefix, List.all_eq_true] at hopens
  obtain ⟨⟨rest, rfl⟩, hgaps⟩ := hopens
  simp only [List.mem_append, List.mem_cons, List.not_mem_nil, or_false, or_self] at hx
  rcases hx with hx | hx
  · exact hhyphen hx
  · have := hgaps x (by simpa using hx)
    simp [isGap, hspace, htab] at this

theorem IsInner.ne_nil {lines : List (List Char)} (h : IsInner lines) : lines ≠ [] := by
  obtain ⟨c, cs, rest, rfl, -⟩ := h.head
  simp

theorem IsBlock.inner {lines : List (List Char)} (h : IsBlock lines) : IsInner lines := by
  refine ⟨h.head, fun line hline => ?_, fun line hline => ?_⟩
  · obtain ⟨hnewline, c, hc, hblank⟩ := h.ends line hline
    refine ⟨hnewline, fun hlast => ?_⟩
    rw [hlast] at hc
    cases hc
    exact absurd hblank (by decide)
  · obtain ⟨-, c, hc, hblank⟩ := h.ends line (List.mem_of_getLast? hline)
    exact List.all_eq_false.2 ⟨c, List.mem_of_getLast? hc, by simp [hblank]⟩

/-! ### Lines of documents -/

private theorem exists_getLast?_append (init : List Char) {line : List Char}
    (h : ∃ c ∈ line.getLast?, isBlank c = false) :
    ∃ c ∈ (init ++ line).getLast?, isBlank c = false := by
  obtain ⟨c, hc, hblank⟩ := h
  refine ⟨c, ?_, hblank⟩
  rw [List.getLast?_append, Option.mem_def.1 hc]
  rfl

private theorem isInner_quote {inner : List (List Char)} (hinner : IsInner inner) : IsInner (inner.map quoteLine) := by
  have hquote (line : List Char) : ∃ rest, quoteLine line = '>' :: rest := by
    unfold quoteLine
    split <;> exact ⟨_, rfl⟩
  obtain ⟨line, lines, rfl⟩ := List.exists_cons_of_ne_nil hinner.ne_nil
  obtain ⟨rest, hrest⟩ := hquote line
  refine ⟨⟨'>', rest, lines.map quoteLine, by rw [List.map_cons, hrest], by decide, by decide, '>', .head _,
    by decide⟩, List.forall_mem_map.2 fun l hl => ?_, fun l hl => ?_⟩
  · obtain ⟨hnewline, hreturn⟩ := hinner.plain l hl
    refine ⟨notMem_quoteLine (by decide) (by decide) hnewline, ?_⟩
    cases l with
    | nil => decide
    | cons c cs =>
      show (['>', ' '] ++ c :: cs).getLast? ≠ _
      rwa [List.getLast?_append_of_ne_nil _ (List.cons_ne_nil c cs)]
  · obtain ⟨l, -, rfl⟩ := List.mem_map.1 (List.mem_of_getLast? hl)
    obtain ⟨rest, hrest⟩ := hquote l
    rw [hrest]
    rfl

private theorem isInner_item (o : PrintOptions) {number : Option Nat} (hnumber : ∀ n ∈ number, n ≤ 999999999)
    (checked : Option Bool) {inner : List (List Char)} (hinner : IsInner inner) :
    IsInner ((Holder.item number checked).lines o inner) := by
  obtain ⟨c, cs, rest, rfl, hc, hbracket, x, hx, hmark⟩ := hinner.head
  have hmarker := Holder.isMarker_mark o hnumber
  obtain ⟨d, ds, hd, hdblank, -, -, -, -, hdbracket⟩ := hmarker.head
  have hbox : '\n' ∉ Holder.box checked := by
    rcases checked with _ | _ | _ <;> decide
  obtain ⟨hfirst, hothers⟩ := List.forall_mem_cons.1 hinner.plain
  refine ⟨⟨d, ds ++ ' ' :: (Holder.box checked ++ c :: cs), _, by rw [Holder.lines, hd]; rfl, hdblank, hdbracket,
    x, ?_, hmark⟩, List.forall_mem_cons.2 ⟨⟨?_, ?_⟩, List.forall_mem_map.2 fun line hline => ⟨?_, ?_⟩⟩, ?_⟩
  · simp only [List.mem_cons, List.mem_append] at hx ⊢
    tauto
  · simp only [List.mem_append, List.mem_cons, not_or] at hfirst ⊢
    exact ⟨fun h => absurd (hmarker.not_blank _ h) (by decide), by decide, hbox, hfirst.1⟩
  · rw [← List.cons_append, ← List.append_assoc, List.getLast?_append_of_ne_nil _ (List.cons_ne_nil c cs)]
    exact hfirst.2
  · exact notMem_indentLine (by decide) _ (hothers line hline).1
  · cases line with
    | nil => simp [indentLine]
    | cons e es =>
      show (List.replicate _ ' ' ++ e :: es).getLast? ≠ _
      rw [List.getLast?_append_of_ne_nil _ (List.cons_ne_nil e es)]
      exact (hothers _ hline).2
  · intro line hline
    rw [Holder.lines, List.getLast?_cons, List.getLast?_map, Option.mem_some_iff] at hline
    cases hrest : rest.getLast? with
    | none =>
      rw [hrest] at hline
      rw [← hline]
      exact List.all_eq_false.2 ⟨c, by simp, by simp [hc]⟩
    | some l =>
      have hl := hinner.last l (by rw [List.getLast?_cons, hrest]; rfl)
      rw [hrest] at hline
      rw [← hline]
      cases l with
      | nil => cases hl
      | cons e es =>
        show (List.replicate _ ' ' ++ e :: es).all isBlank = false
        rw [List.all_append, hl, Bool.and_false]

private theorem isInner_holder (o : PrintOptions) {h : Holder} (hnumber : h.Numbered) {inner : List (List Char)}
    (hinner : IsInner inner) : IsInner (h.lines o inner) := by
  cases h with
  | quote => exact isInner_quote hinner
  | item number checked => exact isInner_item o hnumber checked hinner

theorem isInner_holders (o : PrintOptions) {holders : List Holder} (hnumbers : ∀ h ∈ holders, h.Numbered)
    {inner : List (List Char)} (hinner : IsInner inner) :
    IsInner (heldLines o holders inner) := by
  induction holders with
  | nil => exact hinner
  | cons h holders ih =>
    obtain ⟨hnumber, hnumbers⟩ := List.forall_mem_cons.1 hnumbers
    exact isInner_holder o hnumber (ih hnumbers)

private theorem isBlock_prose {lines : List (List Char)} (hne : lines ≠ []) (hprose : ∀ line ∈ lines, IsProse line)
    {more : List (List Char)} (hmore : ∀ line ∈ more, '\n' ∉ line ∧ ∃ c ∈ line.getLast?, isBlank c = false) :
    IsBlock (lines ++ more) := by
  obtain ⟨line, rest, rfl⟩ := List.exists_cons_of_ne_nil hne
  obtain ⟨c, cs, rfl, hc, hopening⟩ := (hprose _ (.head _)).head
  refine ⟨⟨c, cs, rest ++ more, rfl, hc, ?_, c, .head _, fun hmark => ?_⟩, fun l hl => ?_⟩
  · rintro rfl
    exact hopening (by decide)
  · simp only [ruleMarks, List.mem_cons, List.not_mem_nil, or_false] at hmark
    rcases hmark with rfl | rfl | rfl | rfl | rfl <;> first | exact hopening (by decide) | exact absurd hc (by decide)
  · rcases List.mem_append.1 hl with hl | hl
    · have hline := hprose l hl
      have hlast := List.getLast?_eq_some_getLast hline.ne_nil
      exact ⟨hline.newline, _, hlast, hline.last _ hlast⟩
    · exact hmore l hl

theorem Leaf.newline_notMem {o : PrintOptions} {depth : Nat} {text : List Char} (hholds : (heading depth).Holds text)
    (hmarked : ¬isUnderlined o depth text = true) : '\n' ∉ text := by
  intro hnewline
  by_cases hdepth : depth ≤ 2
  · exact hmarked (by simp [isUnderlined, hdepth, hnewline])
  · exact hholds.2.2 (by omega) hnewline

section

variable {text : List Char} (htext : ∀ line ∈ fields '\n' text, IsTrimmed line)
include htext

private theorem isProse_fields (atx : Bool) : ∀ line ∈ (fields '\n' text).map (escapeLine atx), IsProse line :=
  List.forall_mem_map.2 fun line hline =>
    isProse_escapeLine atx (htext line hline) (newline_notMem_fields text line hline)

private theorem written_fields (atx : Bool) :
    Written atx (join ['\n'] ((fields '\n' text).map (escapeLine atx))) text := by
  have h := written_escapeLines atx true (newline_notMem_fields text) fun line hline hlast =>
    absurd ((htext line (List.dropLast_subset _ hline)).2 ' ' hlast) (by decide)
  rwa [escapeLines_eq_map, join_fields] at h

private theorem ne_nil_of_isTrimmed : text ≠ [] := by
  rintro rfl
  obtain ⟨c, hc, -⟩ := (htext [] (.head _)).1
  cases hc

theorem isProse_title (hnewline : '\n' ∉ text) : IsProse (escapeLine true text) :=
  isProse_fields htext true _ (by rw [fields_of_notMem hnewline]; exact .head _)

private theorem written_title (hnewline : '\n' ∉ text) : Written true (escapeLine true text) text := by
  have h := written_fields htext true
  rwa [fields_of_notMem hnewline] at h

private theorem headingText_title (o : PrintOptions) {depth : Nat} (hone : 1 ≤ depth) (hnewline : '\n' ∉ text) :
    headingText (escapeLine true text ++ Leaf.closing o depth) = escapeLine true text := by
  have hlast := (isProse_title htext hnewline).last
  unfold Leaf.closing
  split
  · exact headingText_closed hlast hone
  · rw [List.append_nil]
    exact headingText_written (written_title htext hnewline) hlast

private theorem isBlock_marked (o : PrintOptions) {depth : Nat} (hone : 1 ≤ depth) (hnewline : '\n' ∉ text) :
    IsBlock [List.replicate depth '#' ++ ' ' :: (escapeLine true text ++ Leaf.closing o depth)] := by
  obtain ⟨d, rfl⟩ := Nat.exists_eq_add_of_le' hone
  have hline := isProse_title htext hnewline
  have hlast : ∃ c ∈ (escapeLine true text ++ Leaf.closing o (d + 1)).getLast?, isBlank c = false := by
    unfold Leaf.closing
    split
    · refine exists_getLast?_append _ ⟨'#', ?_, by decide⟩
      rw [List.getLast?_cons, List.getLast?_replicate, if_neg (Nat.succ_ne_zero d)]
      rfl
    · have hend := List.getLast?_eq_some_getLast hline.ne_nil
      rw [List.append_nil]
      exact ⟨_, hend, hline.last _ hend⟩
  have hclosing : '\n' ∉ Leaf.closing o (d + 1) := by
    unfold Leaf.closing
    split <;> simp
  refine ⟨⟨'#', List.replicate d '#' ++ ' ' :: (escapeLine true text ++ Leaf.closing o (d + 1)), [], rfl, by decide,
    by decide, '#', .head _, by decide⟩, List.forall_mem_singleton.2 ⟨?_, ?_⟩⟩
  · simp [hline.newline, hclosing]
  · rw [← List.singleton_append, ← List.append_assoc]
    exact exists_getLast?_append _ hlast

theorem isBlock_leaf (o : PrintOptions) (leaf : Leaf) (hholds : leaf.Holds text) : IsBlock (leaf.lines o text) := by
  have hne : (fields '\n' text).map (escapeLine false) ≠ [] := by simpa using fields_ne_nil '\n' text
  have hprose := isProse_fields htext false
  cases leaf with
  | paragraph => simpa [Leaf.lines] using isBlock_prose hne hprose (List.forall_mem_nil _)
  | heading depth =>
    rw [Leaf.lines]
    split
    · refine isBlock_prose hne hprose (List.forall_mem_singleton.2 ?_)
      split <;> exact ⟨by decide, _, rfl, by decide⟩
    · rename_i hmarked
      exact isBlock_marked htext o hholds.1 (Leaf.newline_notMem hholds hmarked)

end

/-! ### Reading -/

private theorem erase_readLines {ls : List Line} {value : List Char} (h : Written false (contentOf ls) value)
    (hne : value ≠ []) :
    (readLines ls).trees.map Tree.erase = [.node () (.text (String.ofList value)) []] := by
  rw [erase_trees_readLines, erase_readInline h hne]

theorem taskBox?_box (checked : Option Bool) {c : Char} (cs : List Char) (hc : isBlank c = false)
    (hbox : taskBox? (c :: cs) = none) : taskBox? (Holder.box checked ++ c :: cs) = checked.map (·, 4) := by
  cases checked with
  | none => exact hbox
  | some b =>
    have hgap := isGap_of_not_isBlank hc
    have hgaps : (' ' :: c :: cs).takeWhile isGap = [' '] := by
      rw [List.takeWhile_cons_of_pos (by decide), List.takeWhile_cons_of_neg (by simp [hgap])]
    cases b <;> simp [Holder.box, taskBox, Value.truthy, taskBox?, hgaps, hc]

theorem readBlocks_holder (o : ScanOptions) (q : PrintOptions) (room : Nat) (inItem : Bool) {h : Holder}
    (hnumber : h.Numbered) {inner : List (List Char)} (hinner : IsInner inner) {t : Tree Unit}
    (hread : ∀ inItem (ls : List Line), ls.map Line.text = inner →
      (readBlocks o room inItem ls).trees.map Tree.erase = [t] ∧ (readBlocks o room inItem ls).loose = false)
    {ls : List Line} (hls : ls.map Line.text = h.lines q inner) :
    (readBlocks o (room + 1) inItem ls).trees.map Tree.erase = [h.around t] ∧
      (readBlocks o (room + 1) inItem ls).loose = false := by
  obtain ⟨ms, hms⟩ : ∃ ms : List Line, ms.map Line.text = inner :=
    ⟨inner.map fun line => ⟨line, 0⟩, by simp [Function.comp_def]⟩
  cases h with
  | quote =>
    have hne : ms ≠ [] := fun hnil => hinner.ne_nil (by rw [← hms, hnil]; rfl)
    have hquoted : ls.map Line.text = (ms.map Line.text).map quoteLine := by
      rw [hms]
      exact hls
    have hblocks := readBlocks_quote o room inItem hne hquoted
    rwa [(hread false ms hms).1] at hblocks
  | item number checked =>
    obtain ⟨c, cs, rest, rfl, hc, hbracket, x, hx, hmark⟩ := hinner.head
    have hbox := taskBox?_box checked cs hc (taskBox?_eq_none hbracket)
    obtain ⟨d, ds, hfirst, hd⟩ : ∃ d ds, Holder.box checked ++ c :: cs = d :: ds ∧ isBlank d = false := by
      cases checked with
      | none => exact ⟨c, cs, rfl, hc⟩
      | some b => exact ⟨'[', _, rfl, by decide⟩
    have hcontent : (Holder.box checked ++ c :: cs).drop
        (((taskBox? (Holder.box checked ++ c :: cs)).map (·.2)).getD 0) = c :: cs := by
      rw [hbox]
      cases checked <;> rfl
    -- What comes after the marker keeps the line from being a rule, and the box is taken off again.
    have hrule : isRule (Holder.mark q number ++ ' ' :: (Holder.box checked ++ c :: cs)) = false := by
      refine isRule_eq_false_of_mem (x := x) ?_ hmark
      simp only [List.mem_cons, List.mem_append] at hx ⊢
      tauto
    have hlast : ∀ line ∈ rest.getLast?, line.all isBlank = false := fun line hline =>
      hinner.last line (by rw [List.getLast?_cons, Option.mem_def.1 hline]; rfl)
    rw [Holder.lines] at hls
    rw [hfirst] at hls hrule hbox hcontent
    have hblocks := readBlocks_item o room inItem (Holder.isMarker_mark q hnumber) hd hrule hls
      (hms.trans (congrArg (· :: rest) hcontent.symm)) hlast
    obtain ⟨htrees, hloose⟩ := hread true ms hms
    dsimp only at hblocks
    rw [htrees, hloose, hbox] at hblocks
    cases checked <;> exact hblocks

/-- Lines that read as a block wherever they stand read in holders as the block in them, where so many containers may be
opened. -/
theorem readBlocks_holders (o : ScanOptions) (q : PrintOptions) {inner : List (List Char)} (hinner : IsInner inner)
    {t : Tree Unit}
    (hread : ∀ room inItem (ls : List Line), ls.map Line.text = inner →
      (readBlocks o room inItem ls).trees.map Tree.erase = [t] ∧ (readBlocks o room inItem ls).loose = false)
    {holders : List Holder} (hnumbers : ∀ h ∈ holders, h.Numbered) {room : Nat} (hroom : holders.length ≤ room)
    (inItem : Bool) {ls : List Line}
    (hls : ls.map Line.text = heldLines q holders inner) :
    (readBlocks o room inItem ls).trees.map Tree.erase = [holders.foldr (fun h t => h.around t) t] ∧
      (readBlocks o room inItem ls).loose = false := by
  induction holders generalizing room inItem ls with
  | nil => exact hread room inItem ls hls
  | cons h holders ih =>
    obtain ⟨hnumber, hnumbers⟩ := List.forall_mem_cons.1 hnumbers
    -- The outermost holder takes one of the containers that may be opened.
    obtain ⟨room, rfl⟩ := Nat.exists_eq_add_of_le' (Nat.lt_of_lt_of_le (Nat.succ_pos _) hroom)
    rw [List.length_cons, Nat.add_le_add_iff_right] at hroom
    exact readBlocks_holder o q room inItem hnumber (isInner_holders q hnumbers hinner)
      (fun inItem ls hls => ih hnumbers hroom inItem hls) hls

section

variable {text : List Char} (htext : ∀ line ∈ fields '\n' text, IsTrimmed line)
include htext

section

variable (inner : Inner) (s : Setting) (limit : Value)

private theorem exists_cons_of_fields {ls : List Line}
    (h : ls.map Line.text = (fields '\n' text).map (escapeLine false)) :
    (∃ l ls', ls = l :: ls') ∧
      ∀ lines : List Line, lines.map Line.text = (fields '\n' text).map (escapeLine false) →
        (readLines lines).trees.map Tree.erase = [.node () (.text (String.ofList text)) []] := by
  refine ⟨List.exists_cons_of_ne_nil fun hnil => ?_, fun lines hlines => ?_⟩
  · rw [hnil, List.map_nil, eq_comm, List.map_eq_nil_iff] at h
    exact fields_ne_nil '\n' text h
  · exact erase_readLines (by rw [contentOf, hlines]; exact written_fields htext false) (ne_nil_of_isTrimmed htext)

private theorem assemble_paragraph {ls : List Line}
    (hls : ls.map Line.text = (fields '\n' text).map (escapeLine false)) :
    (assemble inner (s.segments limit false ls)).trees.map Tree.erase = [Leaf.paragraph.tree (String.ofList text)] ∧
      (assemble inner (s.segments limit false ls)).loose = false := by
  obtain ⟨⟨l, ls, rfl⟩, hread⟩ := exists_cons_of_fields htext hls
  obtain ⟨span, lines, notes, hsegments, hlines⟩ := s.segments_prose hls (isProse_fields htext false) limit false
  rw [hsegments]
  refine ⟨?_, rfl⟩
  simp only [assemble, chunkTree, List.map_cons, List.map_nil, Tree.erase_node, hread _ hlines, Leaf.tree]

private theorem assemble_underlined {depth : Nat} (hone : 1 ≤ depth) (htwo : depth ≤ 2) {ls : List Line}
    (hls : ls.map Line.text = (fields '\n' text).map (escapeLine false)) {under : Line}
    (hunder : under.text = List.replicate 3 (if depth = 1 then '=' else '-')) :
    (assemble inner (s.segments limit false (ls ++ [under]))).trees.map Tree.erase =
        [(Leaf.heading depth).tree (String.ofList text)] ∧
      (assemble inner (s.segments limit false (ls ++ [under]))).loose = false := by
  obtain ⟨⟨l, ls, rfl⟩, hread⟩ := exists_cons_of_fields htext hls
  obtain ⟨span, lines, notes, hsegments, hlines⟩ :=
    s.segments_underlined hls (isProse_fields htext false) limit false (by split <;> simp) hunder
  have hdepth : (if (if depth = 1 then '=' else '-') = '=' then 1 else 2) = depth := by
    by_cases h : depth = 1
    · rw [if_pos h, if_pos rfl, h]
    · rw [if_neg h, if_neg (by decide)]
      omega
  rw [List.cons_append, hsegments, hdepth]
  refine ⟨?_, rfl⟩
  simp only [assemble, chunkTree, List.map_cons, List.map_nil, Tree.erase_node, hread _ hlines, Leaf.tree]

private theorem assemble_marked (q : PrintOptions) {depth : Nat} (hone : 1 ≤ depth) (hsix : depth ≤ 6)
    (hnewline : '\n' ∉ text) {l : Line}
    (hl : l.text = List.replicate depth '#' ++ ' ' :: (escapeLine true text ++ Leaf.closing q depth)) :
    (assemble inner (s.segments limit false [l])).trees.map Tree.erase =
        [(Leaf.heading depth).tree (String.ofList text)] ∧
      (assemble inner (s.segments limit false [l])).loose = false := by
  obtain ⟨span, line, hsegments, hcontent⟩ := s.segments_marked limit false hone hsix (isProse_title htext hnewline)
    (headingText_title htext q hone hnewline) hl
  have hinline : (readLines [line]).trees.map Tree.erase = [.node () (.text (String.ofList text)) []] := by
    refine erase_readLines ?_ (ne_nil_of_isTrimmed htext)
    rw [contentOf, List.map_singleton, hcontent]
    exact (written_title htext hnewline).weaken
  rw [hsegments]
  refine ⟨?_, rfl⟩
  simp only [assemble, chunkTree, List.map_cons, List.map_nil, Tree.erase_node, hinline, Leaf.tree]

private theorem assemble_leaf (q : PrintOptions) {leaf : Leaf} (hholds : leaf.Holds text) {ls : List Line}
    (hls : ls.map Line.text = leaf.lines q text) :
    (assemble inner (s.segments limit false ls)).trees.map Tree.erase = [leaf.tree (String.ofList text)] ∧
      (assemble inner (s.segments limit false ls)).loose = false := by
  cases leaf with
  | paragraph => exact assemble_paragraph htext inner s limit hls
  | heading depth =>
    rw [Leaf.lines] at hls
    split at hls
    · rename_i hunderlined
      obtain ⟨above, below, rfl, habove, hbelow⟩ := List.map_eq_append_iff.1 hls
      obtain ⟨under, rfl, hunder⟩ := List.map_eq_singleton_iff.1 hbelow
      have htwo : depth ≤ 2 := of_decide_eq_true (Bool.and_eq_true_iff.1 hunderlined).1
      exact assemble_underlined htext inner s limit hholds.1 htwo habove hunder
    · rename_i hmarked
      obtain ⟨l, rfl, hl⟩ := List.map_eq_singleton_iff.1 hls
      exact assemble_marked htext inner s limit q hholds.1 hholds.2.1 (Leaf.newline_notMem hholds hmarked) hl

end

/-- The lines of a leaf read as it, whether containers may still be opened or not. -/
theorem readBlocks_leaf (o : ScanOptions) (q : PrintOptions) (room : Nat) (inItem : Bool) {leaf : Leaf}
    (hholds : leaf.Holds text) {ls : List Line} (hls : ls.map Line.text = leaf.lines q text) :
    (readBlocks o room inItem ls).trees.map Tree.erase = [leaf.tree (String.ofList text)] ∧
      (readBlocks o room inItem ls).loose = false := by
  cases room with
  | zero => exact assemble_leaf htext _ ⟨o.tabSize, false, inItem⟩ o.nestingLimit q hholds hls
  | succ room => exact assemble_leaf htext (readBlocks o room) ⟨o.tabSize, true, inItem⟩ o.nestingLimit q hholds hls

end

end MarkdownTree
