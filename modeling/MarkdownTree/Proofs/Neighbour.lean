import MarkdownTree.Proofs.BlockPrint

/-!
# The neighbours of a block

What stands before a block among its siblings decides the mark of a list, the mark of a rule, and whether a heading may
be underlined (`listSymbol_eq_mark`, `ruleMark_eq`, `belowParagraph_eq`).  Behind a paragraph without children a block is
printed otherwise exactly if it minds that (`mark_paragraph`, `ruleMark_paragraph`).
-/

namespace MarkdownTree.Print

open Text

/-! ### What stands before a block -/

/-- A frame, and the mark of the list that was printed last, say what stands before the block that comes next. -/
structure Before.Fits (b : Before) (f : Frame) (last : Option Char) : Prop where
  nothing : f.previous.isNone = (b == .nothing)
  paragraph : (f.previous.bind Draft.kind? == some .paragraph) = (b == .paragraph)
  list : ∀ ordered mark, (f.afterList (.bool ordered) && last == some mark) = (b == .list ordered mark)

/-- A frame is one of a site. -/
structure Site.Fits (site : Site) (f : Frame) : Prop where
  kind : f.kind = site.kind
  tight : f.tight = site.tight
  item : site.tight = true → site.kind = .listItem
  bullet : ∀ c, (f.symbol == [c]) = (site.bullet == some c)

variable (o : PrintOptions) {site : Site} {b : Before} {f : Frame} {last : Option Char}

theorem fits_nothing (h : f.previous = none) : Before.nothing.Fits f last := by
  constructor
  · rw [h]
    rfl
  · rw [h]
    rfl
  · simp [Frame.afterList, h]

theorem Site.Fits.after (h : site.Fits f) (previous : Option Draft) : site.Fits { f with previous } :=
  ⟨h.kind, h.tight, h.item, h.bullet⟩

/-- What stands before the next block is the block that was printed last. -/
theorem fits_after (t : Tree (Option Position)) (h : f.previous = some (.ofTree t))
    (hlast : ∀ ordered start spread, t.content = .list ordered start spread → last = some (b.mark o ordered)) :
    (b.after o t).Fits f last := by
  obtain ⟨note, content, children⟩ := t
  rw [Draft.ofTree] at h
  by_cases hlist : content.kind = .list
  · cases content with
    | list former start spread =>
      obtain rfl := hlast former start spread rfl
      constructor
      · rw [h]
        rfl
      · rw [h]
        rfl
      · intro ordered mark
        have hafter : f.afterList (.bool ordered) = (former == ordered) := by
          rw [Frame.afterList, h]
          cases former <;> cases ordered <;> rfl
        rw [hafter, Bool.eq_iff_iff]
        simp [Before.after, Tree.content]
    | _ => cases hlist
  · have hafter (ordered : Value) : f.afterList ordered = false := by
      rw [Frame.afterList, h]
      cases content <;> first | rfl | exact absurd rfl hlist
    constructor
    · rw [h]
      cases content <;> rfl
    · rw [h]
      cases content <;> rfl
    · intro ordered mark
      rw [hafter]
      cases content <;> first | rfl | exact absurd rfl hlist

theorem listSymbol_eq_mark (h : b.Fits f last) (ordered : Bool) :
    Printer.listSymbol o (some f) last (.bool ordered) = b.mark o ordered := by
  have hmark : Printer.listSymbol o (some f) last (.bool ordered) =
      if f.afterList (.bool ordered) && last == some (markOf o ordered) then otherMark o ordered else markOf o ordered := by
    cases ordered <;> rfl
  rw [hmark, h.list, Before.mark]
  simp

/-- A list leaves its mark with the pen. -/
theorem symbol?_of_list {pen pen' : Pen} {s : Scene} {t : Tree (Option Position)} (h : b.Fits f pen.symbol?)
    (hsymbols : pen.symbols ≠ []) (hafter : pen'.symbols = symbolsAfter o (s.inside f) t pen) :
    ∀ ordered start spread, t.content = .list ordered start spread → pen'.symbol? = some (b.mark o ordered) := by
  intro ordered start spread hcontent
  obtain ⟨note, content, children⟩ := t
  obtain rfl : content = .list ordered start spread := hcontent
  have hsymbol : Printer.listSymbol o (s.inside f).current pen.symbol? (.bool ordered) = b.mark o ordered :=
    listSymbol_eq_mark o h ordered
  rw [Pen.symbol?, hafter, ← hsymbol]
  exact symbol?_withSymbol hsymbols _

theorem belowParagraph_eq (hsite : site.Fits f) (h : b.Fits f last) :
    f.belowParagraph = (site.tight && b == .paragraph) := by
  rw [Frame.belowParagraph, hsite.tight, h.paragraph]

theorem ruleMark_eq (hsite : site.Fits f) (h : b.Fits f last) :
    Printer.ruleMark o (some f) =
      if o.rule.char != '_' && (site.kind == .listItem && b == .nothing && site.bullet == some o.rule.char ||
        o.rule.char == '-' && (site.tight && b == .paragraph) || o.rule.char == '-' && site.kind == .root && b == .nothing)
      then '_' else o.rule.char := by
  unfold Printer.ruleMark
  dsimp only
  rw [hsite.kind, h.nothing, hsite.bullet, belowParagraph_eq hsite h]

theorem otherMark_ne (ordered : Bool) : otherMark o ordered ≠ markOf o ordered := by
  unfold otherMark markOf
  cases ordered with
  | false => cases o.bullet <;> simp [Bullet.char]
  | true => cases o.numberMark <;> simp [NumberMark.char]

/-- A list has another mark behind a paragraph without children exactly if it minds that. -/
theorem mark_paragraph (site : Site) (b : Before) (note : Option Position) (ordered : Bool) (start : Option Int)
    (spread : Bool)
    (ts : List (Tree (Option Position))) :
    Before.paragraph.mark o ordered ≠ b.mark o ordered ↔
      minds o site b (.node note (.list ordered start spread) ts) = true := by
  have hminds : minds o site b (.node note (.list ordered start spread) ts) = (b == .list ordered (markOf o ordered)) := rfl
  rw [hminds, beq_iff_eq, Before.mark, Before.mark, if_neg (by simp)]
  split
  · rename_i hb
    exact iff_of_true (otherMark_ne o ordered).symm hb
  · rename_i hb
    exact iff_of_false (fun hne => hne rfl) hb

private theorem ite_ne_ite {x y : Char} (h : x ≠ y) (p q : Bool) :
    (if p then x else y) ≠ (if q then x else y) ↔ p ≠ q := by
  cases p <;> cases q <;> simp [h, h.symm]

/-- So it has the same mark if it does not mind. -/
theorem mark_eq {silence : Bool} {note : Option Position} {ordered : Bool} {start : Option Int} {spread : Bool}
    {ts : List (Tree (Option Position))}
    (h : (silence && minds o site b (.node note (.list ordered start spread) ts)) = false) :
    (if silence then .paragraph else b : Before).mark o ordered = b.mark o ordered := by
  cases silence with
  | false => rfl
  | true =>
    by_contra hne
    rw [(mark_paragraph o site b note ordered start spread ts).1 hne] at h
    cases h

theorem ruleMark_paragraph {f' : Frame} (hsite : site.Fits f) (hsite' : site.Fits f') (h : Before.paragraph.Fits f last)
    (h' : b.Fits f' last) (note : Option Position) (ts : List (Tree (Option Position))) :
    Printer.ruleMark o (some f) ≠ Printer.ruleMark o (some f') ↔ minds o site b (.node note .thematicBreak ts) = true := by
  have hself : (Before.paragraph == .paragraph) = true := rfl
  have hother : (Before.paragraph == .nothing) = false := rfl
  have htight : site.tight = true → (site.kind == .listItem) = true ∧ (site.kind == .root) = false := by
    intro htight
    rw [hsite.item htight]
    exact ⟨rfl, rfl⟩
  have hpart : (b == .paragraph) = true → (b == .nothing) = false := by
    intro hb
    rw [beq_iff_eq.1 hb]
    rfl
  rw [ruleMark_eq o hsite h, ruleMark_eq o hsite' h', hself, hother]
  unfold minds
  dsimp only [Tree.content, bne]
  -- What remains is said by a few truth values.
  generalize (b == .paragraph) = paragraph at hpart ⊢
  generalize (b == .nothing) = nothing at hpart ⊢
  generalize (site.kind == .listItem) = item at htight ⊢
  generalize (site.kind == .root) = root at htight ⊢
  generalize site.tight = tight at htight ⊢
  cases o.rule with
  | underscore => simp [RuleMark.char]
  | star =>
    rw [ite_ne_ite (by decide)]
    dsimp only [RuleMark.char]
    generalize (site.bullet == some '*') = own
    revert paragraph nothing item root tight own
    decide
  | hyphen =>
    rw [ite_ne_ite (by decide)]
    dsimp only [RuleMark.char]
    generalize (site.bullet == some '-') = own
    revert paragraph nothing item root tight own
    decide

end MarkdownTree.Print
