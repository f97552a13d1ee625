import Mathlib.Data.List.Forall2
import MarkdownTree.Proofs.Chunk
import MarkdownTree.Scan.Document

/-!
# Lines that say the same

Offsets say where a line stands and nothing else.  So lines of the same texts (`Line.Alike`) are cut into chunks that
differ in their places only (`alike_segments`), and they are read as blocks of the same structure with the same notes
but for their places (`alike_readBlocks`).  The number that notes on nesting mention has no other use either, so rows
may be cut with two numbers as long as only that is compared of the notes which both have in common.
-/

namespace MarkdownTree.Scan

open Text

/-! ### Rows side by side -/

section

variable {α β : Type} {R : α → β → Prop} {as : List α} {bs : List β} {p : α → Bool} {q : β → Bool}

private theorem forall₂_cases (h : List.Forall₂ R as bs) :
    (as = [] ∧ bs = []) ∨ ∃ a as' b bs', as = a :: as' ∧ bs = b :: bs' ∧ R a b ∧ List.Forall₂ R as' bs' := by
  cases h with
  | nil => exact .inl ⟨rfl, rfl⟩
  | cons hab h => exact .inr ⟨_, _, _, _, rfl, rfl, hab, h⟩

private theorem forall₂_takeWhile (hpq : ∀ a b, R a b → p a = q b) (h : List.Forall₂ R as bs) :
    List.Forall₂ R (as.takeWhile p) (bs.takeWhile q) := by
  induction h with
  | nil => exact .nil
  | @cons a b as bs hab _ ih =>
    rw [List.takeWhile_cons, List.takeWhile_cons, hpq a b hab]
    split
    · exact .cons hab ih
    · exact .nil

private theorem forall₂_dropWhile (hpq : ∀ a b, R a b → p a = q b) (h : List.Forall₂ R as bs) :
    List.Forall₂ R (as.dropWhile p) (bs.dropWhile q) := by
  induction h with
  | nil => exact .nil
  | @cons a b as bs hab hrest ih =>
    rw [List.dropWhile_cons, List.dropWhile_cons, hpq a b hab]
    split
    · exact ih
    · exact .cons hab hrest

private theorem forall₂_dropEndWhile (hpq : ∀ a b, R a b → p a = q b) (h : List.Forall₂ R as bs) :
    List.Forall₂ R (dropEndWhile p as) (dropEndWhile q bs) :=
  List.rel_reverse (forall₂_dropWhile hpq (List.rel_reverse h))

private theorem map_eq_of_forall₂ {γ : Type} {f : α → γ} {g : β → γ} (hfg : ∀ a b, R a b → f a = g b)
    (h : List.Forall₂ R as bs) : as.map f = bs.map g := by
  induction h with
  | nil => rfl
  | cons hab _ ih => rw [List.map_cons, List.map_cons, hfg _ _ hab, ih]

end

/-! ### Lines -/

namespace Line

/-- Two lines say the same, wherever they stand. -/
def Alike (a b : Line) : Prop :=
  a.text = b.text

variable {a b : Line}

namespace Alike

private theorem isBlank (h : a.Alike b) : a.isBlank = b.isBlank :=
  congrArg (List.all · Text.isBlank) h

theorem indent (h : a.Alike b) (tab : Rat) : a.indent tab = b.indent tab :=
  congrArg (indentFrom tab 0) h

private theorem drop (h : a.Alike b) (n : Nat) : (a.drop n).Alike (b.drop n) :=
  congrArg (List.drop n) h

private theorem trimStart (h : a.Alike b) : a.trimStart.Alike b.trimStart := by
  rw [Alike, Line.trimStart, Line.trimStart, h]
  exact h.drop _

private theorem trimEnd (h : a.Alike b) : a.trimEnd.Alike b.trimEnd :=
  congrArg Text.trimEnd h

private theorem dropColumns (h : a.Alike b) (tab columns : Rat) :
    (a.dropColumns tab columns).Alike (b.dropColumns tab columns) := by
  rw [Alike, Line.dropColumns, Line.dropColumns, h]
  exact h.drop _

end Alike

theorem forall₂_alike_iff {ls ms : List Line} : List.Forall₂ Alike ls ms ↔ ls.map text = ms.map text := by
  rw [← List.forall₂_eq_eq_eq, List.forall₂_map_left_iff, List.forall₂_map_right_iff]
  rfl

end Line

/-! ### Markers -/

/-- Two markers that differ in their places only. -/
structure Marker.Alike (m n : Marker) : Prop where
  symbol : m.symbol = n.symbol
  number : m.number = n.number
  contentIndent : m.contentIndent = n.contentIndent
  content : m.content.Alike n.content

namespace Marker

variable {m n m' n' : Marker}

private theorem Alike.continues (h : m.Alike n) (h' : m'.Alike n') : m.continues m' = n.continues n' := by
  simp only [Marker.continues, ordered, h.symbol, h.number, h'.symbol, h'.number]

private theorem alike_read? {a b : Line} (h : a.Alike b) (tab : Rat) :
    (read? tab a = none ∧ read? tab b = none) ∨
      ∃ m n, read? tab a = some m ∧ read? tab b = some n ∧ m.Alike n := by
  have hbody := h.trimStart
  unfold read?
  dsimp only
  rw [h.indent, hbody]
  split
  · exact .inl ⟨rfl, rfl⟩
  · cases marker? b.trimStart.text with
    | none => exact .inl ⟨rfl, rfl⟩
    | some found =>
      obtain ⟨symbol, number, size⟩ := found
      have hrest := hbody.drop size
      simp only [Option.map_some, hrest.isBlank, hrest.indent]
      refine .inr ⟨_, _, rfl, rfl, ?_⟩
      split
      · exact ⟨rfl, rfl, rfl, rfl⟩
      split
      · exact ⟨rfl, rfl, rfl, hrest.dropColumns tab 1⟩
      · exact ⟨rfl, rfl, rfl, hrest.dropColumns tab _⟩

end Marker

/-! ### Chunks -/

/-- Two items that differ in their places only. -/
structure ItemChunk.Alike (x y : ItemChunk) : Prop where
  checked : x.checked = y.checked
  lines : List.Forall₂ Line.Alike x.lines y.lines
  trailingBlank : x.trailingBlank = y.trailingBlank

section

variable {β : Type} (f : Anomaly → β)

/-- Two rows of notes, of which only a part is compared. -/
def NotesAlike (ns ms : List Note) : Prop :=
  ns.map (fun n => f n.anomaly) = ms.map fun n => f n.anomaly

/-- Two chunks that differ in their places, and in a part of their notes. -/
inductive Chunk.Alike : Chunk → Chunk → Prop
  | code {s t : Span} {value : List Char} {lang details : Option (List Char)} {ns ms : List Note}
    (hnotes : NotesAlike f ns ms) : Alike (.code s value lang details ns) (.code t value lang details ms)
  | heading {s t : Span} {depth : Nat} {ls ks : List Line} {ns ms : List Note}
    (hlines : List.Forall₂ Line.Alike ls ks) (hnotes : NotesAlike f ns ms) :
    Alike (.heading s depth ls ns) (.heading t depth ks ms)
  | paragraph {s t : Span} {ls ks : List Line} {ns ms : List Note}
    (hlines : List.Forall₂ Line.Alike ls ks) (hnotes : NotesAlike f ns ms) :
    Alike (.paragraph s ls ns) (.paragraph t ks ms)
  | rule {s t : Span} : Alike (.rule s) (.rule t)
  | quote {s t : Span} {ls ks : List Line} (hlines : List.Forall₂ Line.Alike ls ks) : Alike (.quote s ls) (.quote t ks)
  | list {m n : Marker} {xs ys : List ItemChunk} (hmarker : m.number = n.number)
    (hitems : List.Forall₂ ItemChunk.Alike xs ys) : Alike (.list m xs) (.list n ys)

/-- Two segments that differ in their places, and in a part of their notes. -/
structure Segment.Alike (x y : Segment) : Prop where
  gap : x.gap = y.gap
  chunk : x.chunk.Alike f y.chunk

end

namespace Setting

variable {β : Type} {f : Anomaly → β} (s : Setting) {a b : Line} {as bs : List Line}

private theorem interrupts_alike (h : a.Alike b) : s.interrupts a = s.interrupts b := by
  unfold interrupts
  dsimp only
  rw [h.indent, h.trimStart]
  rcases Marker.alike_read? h s.tab with ⟨ha, hb⟩ | ⟨m, n, ha, hb, hm⟩
  · rw [ha, hb]
  · simp only [ha, hb, hm.content.isBlank, Marker.ordered, hm.number]

private theorem underline?_alike (h : a.Alike b) : s.underline? a = s.underline? b := by
  unfold underline?
  rw [h.indent, h.trimStart]

private theorem goesOn_alike (h : a.Alike b) : s.goesOn a = s.goesOn b := by
  unfold goesOn
  rw [h.isBlank, s.underline?_alike h, s.interrupts_alike h]

/-! ### Leaf blocks -/

private theorem alike_indentedCode (h : a.Alike b) (hs : List.Forall₂ Line.Alike as bs) :
    (s.indentedCode a as).1.Alike f (s.indentedCode b bs).1 ∧ (s.indentedCode a as).2 = (s.indentedCode b bs).2 := by
  have hmore : List.Forall₂ Line.Alike (s.indentedLines as) (s.indentedLines bs) :=
    forall₂_dropEndWhile (fun _ _ h => h.isBlank)
      (forall₂_takeWhile (fun _ _ h => by rw [h.isBlank, h.indent]) hs)
  have hvalue := map_eq_of_forall₂ (fun _ _ h => h.dropColumns s.tab 4) (hmore.cons h)
  unfold indentedCode
  dsimp only
  rw [hvalue, hmore.length_eq]
  exact ⟨.code rfl, rfl⟩

private theorem alike_fencedCode (fence : Fence) (h : a.Alike b) (hs : List.Forall₂ Line.Alike as bs) :
    (s.fencedCode fence a as).1.Alike f (s.fencedCode fence b bs).1 ∧
      (s.fencedCode fence a as).2 = (s.fencedCode fence b bs).2 := by
  have hinner := forall₂_takeWhile (R := Line.Alike)
    (p := fun x => !(x.indent s.tab < 4 && fence.closedBy x.trimStart.text))
    (q := fun x => !(x.indent s.tab < 4 && fence.closedBy x.trimStart.text))
    (fun _ _ h => by rw [h.indent, h.trimStart]) hs
  unfold fencedCode
  dsimp only
  rw [map_eq_of_forall₂ (fun _ _ h' => h'.dropColumns s.tab (a.indent s.tab)) hinner, hinner.length_eq, h.indent]
  rcases forall₂_cases (List.forall₂_drop _ hs) with ⟨has, hbs⟩ | ⟨x, xs, y, ys, has, hbs, -, -⟩ <;> rw [has, hbs]
  · exact ⟨.code rfl, rfl⟩
  · exact ⟨.code rfl, rfl⟩

private theorem alike_markedHeading (depth : Nat) (h : a.Alike b) :
    (markedHeading depth a).Alike f (markedHeading depth b) :=
  .heading (.cons (congrArg headingText (h.drop depth).trimStart) .nil) rfl

private theorem alike_paragraphLines (hs : List.Forall₂ Line.Alike as bs) :
    List.Forall₂ Line.Alike (paragraphLines as) (paragraphLines bs) := by
  induction hs with
  | nil => exact .nil
  | cons h hs ih =>
    cases hs with
    | nil => exact .cons h.trimStart.trimEnd .nil
    | cons => exact .cons h.trimStart ih

private theorem alike_paragraph {ns ms : List Note} (hnotes : NotesAlike f ns ms) (h : a.Alike b)
    (hs : List.Forall₂ Line.Alike as bs) :
    (s.paragraph ns a as).1.Alike f (s.paragraph ms b bs).1 ∧ (s.paragraph ns a as).2 = (s.paragraph ms b bs).2 := by
  have hmore := forall₂_takeWhile (R := Line.Alike) (fun _ _ h => s.goesOn_alike h) hs
  have hlines := alike_paragraphLines (hmore.cons h)
  unfold paragraph
  dsimp only
  rw [hmore.length_eq]
  rcases forall₂_cases (List.forall₂_drop _ hs) with ⟨has, hbs⟩ | ⟨x, xs, y, ys, has, hbs, hxy, -⟩ <;> rw [has, hbs]
  · exact ⟨.paragraph hlines hnotes, rfl⟩
  · dsimp only [List.head?_cons]
    rw [s.underline?_alike hxy]
    split
    · exact ⟨.heading hlines hnotes, rfl⟩
    · exact ⟨.paragraph hlines hnotes, rfl⟩

/-! ### Containers -/

private theorem alike_quoted? (h : a.Alike b) :
    (s.quoted? a = none ∧ s.quoted? b = none) ∨
      ∃ x y, s.quoted? a = some x ∧ s.quoted? b = some y ∧ x.Alike y := by
  have hbody := h.trimStart
  unfold quoted?
  dsimp only
  rw [h.isBlank, h.indent, hbody]
  split
  · exact .inl ⟨rfl, rfl⟩
  · split
    · exact .inr ⟨_, _, rfl, rfl, hbody.drop _⟩
    · exact .inr ⟨_, _, rfl, rfl, hbody.drop _⟩
    · exact .inl ⟨rfl, rfl⟩

private theorem alike_quotedLines (hs : List.Forall₂ Line.Alike as bs) :
    List.Forall₂ Line.Alike (s.quotedLines as) (s.quotedLines bs) := by
  induction hs with
  | nil => exact .nil
  | cons h _ ih =>
    unfold quotedLines
    rcases s.alike_quoted? h with ⟨ha, hb⟩ | ⟨x, y, ha, hb, hxy⟩ <;> rw [ha, hb]
    · exact .nil
    · exact .cons hxy ih

private theorem alike_quote (h : a.Alike b) (hs : List.Forall₂ Line.Alike as bs) :
    (s.quote a as).1.Alike f (s.quote b bs).1 ∧ (s.quote a as).2 = (s.quote b bs).2 := by
  have hlines := s.alike_quotedLines (hs.cons h)
  unfold quote
  exact ⟨.quote hlines, congrArg (· - 1) hlines.length_eq⟩

private theorem isLazy_alike {x y : Line} (hxy : x.Alike y) (fence : Option Fence) (h : a.Alike b) :
    s.isLazy x fence a = s.isLazy y fence b := by
  unfold isLazy
  dsimp only
  rw [hxy.isBlank, hxy.trimStart, h.trimStart, interrupts_alike _ h]

private theorem alike_itemLines (indent : Rat) (fence : Option Fence) {x y : Line} (hxy : x.Alike y)
    (hs : List.Forall₂ Line.Alike as bs) :
    List.Forall₂ Line.Alike (s.itemLines indent x fence as) (s.itemLines indent y fence bs) := by
  induction hs generalizing x y fence with
  | nil => exact .nil
  | cons h _ ih =>
    have hinner := h.dropColumns s.tab indent
    unfold itemLines
    dsimp only
    rw [h.isBlank, h.indent, s.isLazy_alike hxy fence h, hinner, h.trimStart]
    split
    · exact .cons hinner (ih fence hinner)
    split
    · exact .cons hinner (ih _ hinner)
    split
    · exact .cons h.trimStart (ih _ h.trimStart)
    · exact .nil

private theorem alike_item {m n : Marker} (hm : m.Alike n) (hs : List.Forall₂ Line.Alike as bs) :
    (s.item m as).1.Alike (s.item n bs).1 ∧ (s.item m as).2 = (s.item n bs).2 := by
  -- The content is the marker's, or what is left of it after a task box.
  have hitem {x y : Line} (hxy : x.Alike y) (box : Option (Bool × Nat)) :
      let more := s.itemLines m.contentIndent x (fenceAfter x.text none) as
      let others := s.itemLines n.contentIndent y (fenceAfter y.text none) bs
      ItemChunk.Alike
          ⟨m, box.map (·.1), x :: dropEndWhile Line.isBlank more, (dropEndWhile Line.isBlank more).length < more.length⟩
          ⟨n, box.map (·.1), y :: dropEndWhile Line.isBlank others,
            (dropEndWhile Line.isBlank others).length < others.length⟩ ∧
        more.length = others.length := by
    intro more others
    have hmore : List.Forall₂ Line.Alike more others := by
      dsimp only [more, others]
      rw [hm.contentIndent, hxy]
      exact s.alike_itemLines _ _ hxy hs
    have hkept := forall₂_dropEndWhile (fun _ _ h => h.isBlank) hmore
    exact ⟨⟨rfl, .cons hxy hkept, by rw [hkept.length_eq, hmore.length_eq]⟩, hmore.length_eq⟩
  unfold item
  dsimp only
  rw [hm.content]
  cases taskBox? n.content.text with
  | none => exact hitem hm.content none
  | some box => exact hitem (hm.content.drop box.2) (some box)

private theorem alike_items {m n : Marker} (hm : m.Alike n) {as bs : List Line} (hs : List.Forall₂ Line.Alike as bs) :
    List.Forall₂ ItemChunk.Alike (s.items m as).1 (s.items n bs).1 ∧ (s.items m as).2 = (s.items n bs).2 := by
  obtain ⟨hitem, htaken⟩ := s.alike_item hm hs
  have hrest := List.forall₂_drop (s.item n bs).2 hs
  rw [items_eq, items_eq, htaken]
  rcases forall₂_cases hrest with ⟨has, hbs⟩ | ⟨x, xs, y, ys, has, hbs, hxy, hxs⟩
  · rw [has, hbs]
    exact ⟨.cons hitem .nil, rfl⟩
  · simp only [has, hbs]
    rcases Marker.alike_read? hxy s.tab with ⟨hx, hy⟩ | ⟨next, next', hx, hy, hnext⟩
    · simp only [hx, hy, and_true]
      exact .cons hitem .nil
    · simp only [hx, hy, hnext.continues hm]
      split
      · obtain ⟨hothers, hmore⟩ := alike_items hnext hxs
        exact ⟨.cons hitem hothers, by rw [hmore]⟩
      · exact ⟨.cons hitem .nil, rfl⟩
termination_by as.length
decreasing_by
  have hlen := congrArg List.length has
  simp only [List.length_drop, List.length_cons] at hlen
  omega

/-! ### All chunks -/

variable {limit limit' : Value} (hlimit : f (.nestingLimit limit) = f (.nestingLimit limit'))
include hlimit

private theorem alike_paragraphNotes (h : a.Alike b) :
    NotesAlike f (s.paragraphNotes limit a a.trimStart) (s.paragraphNotes limit' b b.trimStart) := by
  have hread : (Marker.read? s.tab a).isSome = (Marker.read? s.tab b).isSome := by
    rcases Marker.alike_read? h s.tab with ⟨ha, hb⟩ | ⟨m, n, ha, hb, -⟩ <;> rw [ha, hb]
    rfl
  unfold NotesAlike paragraphNotes
  dsimp only
  rw [hread, h.trimStart, List.map_append, List.map_append]
  congr 1
  · split
    · simpa using hlimit
    · rfl
  · split <;> rfl

private theorem alike_chunk (h : a.Alike b) (hs : List.Forall₂ Line.Alike as bs) :
    (s.chunk limit a as).1.Alike f (s.chunk limit' b bs).1 ∧ (s.chunk limit a as).2 = (s.chunk limit' b bs).2 := by
  have hbody := h.trimStart
  unfold chunk
  dsimp only
  rw [h.indent, hbody]
  split
  · exact s.alike_indentedCode h hs
  split
  · exact s.alike_fencedCode _ h hs
  split
  · exact ⟨alike_markedHeading _ hbody, rfl⟩
  split
  · exact ⟨.rule, rfl⟩
  split
  · exact s.alike_quote h hs
  have hparagraph := s.alike_paragraph (s.alike_paragraphNotes hlimit h) h hs
  cases s.containers with
  | false => exact hparagraph
  | true =>
    rcases Marker.alike_read? h s.tab with ⟨ha, hb⟩ | ⟨m, n, ha, hb, hm⟩ <;> simp only [if_true, ha, hb]
    · exact hparagraph
    · obtain ⟨hitems, htaken⟩ := s.alike_items hm hs
      exact ⟨.list hm.number hitems, htaken⟩

/-- Rows of lines that say the same are cut into chunks that differ in their places only, and in what is not compared of
their notes. -/
theorem alike_segments (gap : Bool) {as bs : List Line} (hs : List.Forall₂ Line.Alike as bs) :
    List.Forall₂ (Segment.Alike f) (s.segments limit gap as) (s.segments limit' gap bs) := by
  cases hs with
  | nil =>
    rw [segments, segments]
    exact .nil
  | @cons a b as bs h hs =>
    rw [segments, segments, h.isBlank]
    split
    · exact alike_segments true hs
    · obtain ⟨hchunk, htaken⟩ := s.alike_chunk hlimit h hs
      dsimp only
      rw [htaken]
      exact .cons ⟨rfl, hchunk⟩ (alike_segments false (List.forall₂_drop _ hs))
termination_by as.length

end Setting

/-! ### Blocks -/

section

variable {β : Type} (f : Anomaly → β)

/-- Blocks of the same structure, and of the same notes as far as these are compared. -/
structure Blocks.Alike (x y : Blocks) : Prop where
  trees : x.trees.map Tree.erase = y.trees.map Tree.erase
  notes : NotesAlike f x.notes y.notes
  loose : x.loose = y.loose

/-- Two ways to read what stands in containers that give blocks alike for lines that say the same. -/
def Inner.Alike (inner other : Inner) : Prop :=
  ∀ inItem ls ms, List.Forall₂ Line.Alike ls ms → (inner inItem ls).Alike f (other inItem ms)

end

variable {β : Type} {f : Anomaly → β} {ls ms : List Line}

theorem NotesAlike.append {ns ms ns' ms' : List Note} (h : NotesAlike f ns ms) (h' : NotesAlike f ns' ms') :
    NotesAlike f (ns ++ ns') (ms ++ ms') := by
  unfold NotesAlike at *
  rw [List.map_append, List.map_append, h, h']

private theorem alike_readLines (h : List.Forall₂ Line.Alike ls ms) :
    (readLines ls).trees.map Tree.erase = (readLines ms).trees.map Tree.erase ∧
      NotesAlike f (readLines ls).notes (readLines ms).notes := by
  have hcontent : contentOf ls = contentOf ms := congrArg (join ['\n']) (Line.forall₂_alike_iff.1 h)
  simp only [readLines, hcontent, NotesAlike, List.map_map, Function.comp_def, Tree.erase_map, Note.relocate, and_self]

section

variable {inner other : Inner} (hinner : inner.Alike f other)
include hinner

private theorem alike_itemTree {x y : ItemChunk} (h : x.Alike y) :
    (itemTree inner x).1.erase = (itemTree other y).1.erase ∧
      NotesAlike f (itemTree inner x).2.1 (itemTree other y).2.1 ∧
      (itemTree inner x).2.2 = (itemTree other y).2.2 := by
  have hblocks := hinner true _ _ h.lines
  refine ⟨?_, hblocks.notes, hblocks.loose⟩
  simp only [itemTree, Tree.erase_node, hblocks.loose, h.checked, hblocks.trees]

end

private theorem itemsApart_alike {xs ys : List ItemChunk} (h : List.Forall₂ ItemChunk.Alike xs ys) :
    itemsApart xs = itemsApart ys := by
  induction h with
  | nil => rfl
  | cons hxy hxs ih =>
    cases hxs with
    | nil => rfl
    | cons => simp only [itemsApart, hxy.trailingBlank] at ih ⊢; rw [ih]

private theorem notesAlike_flatMap {α : Type} {R : α → α → Prop} {g h : α → List Note}
    (hgh : ∀ a b, R a b → NotesAlike f (g a) (h b)) {as bs : List α} (hs : List.Forall₂ R as bs) :
    NotesAlike f (as.flatMap g) (bs.flatMap h) := by
  induction hs with
  | nil => rfl
  | cons hab _ ih => exact (hgh _ _ hab).append ih

section

variable {inner other : Inner} (hinner : inner.Alike f other)
include hinner

private theorem alike_chunkTree {c d : Chunk} (h : c.Alike f d) :
    (chunkTree inner c).1.erase = (chunkTree other d).1.erase ∧
      NotesAlike f (chunkTree inner c).2 (chunkTree other d).2 := by
  cases h with
  | code hnotes => exact ⟨rfl, hnotes⟩
  | heading hlines hnotes =>
    obtain ⟨htrees, hmore⟩ := alike_readLines (f := f) hlines
    exact ⟨by simp only [chunkTree, Tree.erase_node, htrees], hnotes.append hmore⟩
  | paragraph hlines hnotes =>
    obtain ⟨htrees, hmore⟩ := alike_readLines (f := f) hlines
    exact ⟨by simp only [chunkTree, Tree.erase_node, htrees], hnotes.append hmore⟩
  | rule => exact ⟨rfl, rfl⟩
  | quote hlines =>
    have hblocks := hinner false _ _ hlines
    exact ⟨by simp only [chunkTree, Tree.erase_node, hblocks.trees], hblocks.notes⟩
  | list hmarker hitems =>
    have htrees := map_eq_of_forall₂ (R := ItemChunk.Alike) (fun _ _ h => (alike_itemTree hinner h).1) hitems
    have hloose := map_eq_of_forall₂ (R := ItemChunk.Alike) (fun _ _ h => (alike_itemTree hinner h).2.2) hitems
    have hany := congrArg (List.any · id) hloose
    simp only [List.any_map, Function.comp_def, id] at hany
    constructor
    · simp only [chunkTree, Tree.erase_node, List.map_map, Function.comp_def, List.any_map, Marker.ordered, hmarker,
        itemsApart_alike hitems, hany, htrees]
    · simp only [chunkTree, List.flatMap_map]
      exact notesAlike_flatMap (R := ItemChunk.Alike) (fun _ _ h => (alike_itemTree hinner h).2.1) hitems

private theorem alike_assemble {xs ys : List Segment} (h : List.Forall₂ (Segment.Alike f) xs ys) :
    (assemble inner xs).Alike f (assemble other ys) := by
  have htrees := map_eq_of_forall₂ (R := Segment.Alike f) (fun _ _ h => (alike_chunkTree hinner h.chunk).1) h
  have hgaps := map_eq_of_forall₂ (R := Segment.Alike f) (fun _ _ h => h.gap) (List.forall₂_drop 1 h)
  have hany := congrArg (List.any · id) hgaps
  simp only [List.any_map, Function.comp_def, id] at hany
  refine ⟨?_, ?_, hany⟩
  · simp only [assemble, List.map_map, Function.comp_def, htrees]
  · simp only [assemble, List.flatMap_map]
    exact notesAlike_flatMap (R := Segment.Alike f) (fun _ _ h => (alike_chunkTree hinner h.chunk).2) h

end

/-- Rows of lines that say the same are read as blocks of the same structure with the same notes, as far as these do not
mention limits on nesting that differ. -/
theorem alike_readBlocks {o p : ScanOptions} (htab : o.tabSize = p.tabSize)
    (hlimit : f (.nestingLimit o.nestingLimit) = f (.nestingLimit p.nestingLimit)) (room : Nat) :
    Inner.Alike f (readBlocks o room) (readBlocks p room) := by
  induction room with
  | zero =>
    intro inItem ls ms h
    rw [readBlocks, readBlocks, htab]
    exact alike_assemble (fun _ _ _ _ => ⟨rfl, rfl, rfl⟩) (Setting.alike_segments _ hlimit false h)
  | succ room ih =>
    intro inItem ls ms h
    rw [readBlocks, readBlocks, htab]
    exact alike_assemble ih (Setting.alike_segments _ hlimit false h)

end MarkdownTree.Scan
