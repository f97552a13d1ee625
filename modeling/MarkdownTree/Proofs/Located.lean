import MarkdownTree.Proofs.Document
import MarkdownTree.Scan.File

/-!
# Located trees

A tree whose nodes do not end before they start keeps its shape when its spans become positions (`locate?_eq_some`).
Offsets of the text are the offsets of their points, and the slice of a position starts with the character at its start
(`head?_slice`).  So a scan always gives a tree, which is that of the document with positions (`tree_scan`).
-/

namespace MarkdownTree

open Scan

namespace Locator

/-- The position of a span. -/
def positionOf (l : Locator) (s : Span) : Position :=
  ⟨l.pointAt s.start, l.pointAt s.stop⟩

theorem offset_pointAt (l : Locator) (offset : Nat) : (l.pointAt offset).offset = (min offset l.size : Nat) :=
  rfl

theorem start_positionOf (l : Locator) (s : Span) : (l.positionOf s).start.offset = (min s.start l.size : Nat) :=
  rfl

theorem stop_positionOf (l : Locator) (s : Span) : (l.positionOf s).stop.offset = (min s.stop l.size : Nat) :=
  rfl

theorem position?_eq_some (l : Locator) {s : Span} (h : s.start ≤ s.stop) :
    l.position? s.start s.stop = some (l.positionOf s) := by
  have hle : (l.pointAt s.start).offset ≤ (l.pointAt s.stop).offset := by
    simp only [offset_pointAt]
    omega
  simp [position?, Position.between?, point, hle, positionOf]

end Locator

mutual

/-- A tree whose nodes do not end before they start is located as it is, with positions in place of its spans. -/
theorem locate?_eq_some (l : Locator) : ∀ t : Tree Span, (∀ u ∈ t.preorder, u.note.start ≤ u.note.stop) →
    locate? l t = some (t.map l.positionOf)
  | .node span content children, h => by
    obtain ⟨hspan, hchildren⟩ := Tree.forall_mem_preorder.1 h
    have hspan : span.start ≤ span.stop := hspan
    have hchildren : ∀ t ∈ children, ∀ u ∈ t.preorder, u.note.start ≤ u.note.stop := hchildren
    rw [locate?, l.position?_eq_some hspan, locateList?_eq_some l children hchildren]
    rfl

private theorem locateList?_eq_some (l : Locator) : ∀ ts : List (Tree Span),
    (∀ t ∈ ts, ∀ u ∈ t.preorder, u.note.start ≤ u.note.stop) → locateList? l ts = some (Tree.mapList l.positionOf ts)
  | [], _ => rfl
  | t :: ts, h => by
    obtain ⟨ht, hts⟩ := List.forall_mem_cons.1 h
    rw [locateList?, locate?_eq_some l t ht, locateList?_eq_some l ts hts]
    rfl

end

/-- The slice of a position that is not empty starts with the character at the position's start. -/
theorem head?_slice {text : List Char} {s : Span} (hlt : s.start < s.stop) (hsize : s.stop ≤ text.length) :
    (((Locator.ofText text).positionOf s).slice text).head? = text[s.start]? := by
  have hstart : (min s.start text.length) = s.start := by omega
  have hstop : (min s.stop text.length) = s.stop := by omega
  have hclamp {n : Nat} (h : n ≤ text.length) : Position.clampIndex text.length n = n := by
    rw [Position.clampIndex, if_neg (by omega), Int.toNat_natCast, Nat.min_eq_left h]
  unfold Position.slice
  rw [Locator.start_positionOf, Locator.stop_positionOf, Locator.ofText, hstart, hstop, hclamp (by omega),
    hclamp hsize, List.head?_drop, List.getElem?_take_of_lt hlt]

/-! ### Scans -/

/-- The nodes of a document stand in its text. -/
theorem bounds_readDocument (o : ScanOptions) (text : List Char) :
    ∀ u ∈ (readDocument o text).tree.preorder, u.note.start ≤ u.note.stop ∧ u.note.stop ≤ text.length :=
  fun u hu => (regular_bounds (regular_readDocument o text) u hu).2

/-- A scan gives the tree of the document with positions in place of spans. -/
theorem tree_scan (o : ScanOptions) (path : Option String) (text : String) :
    (Scan.scan o path text).tree
      = some ((readDocument o text.toList).tree.map (Locator.ofText text.toList).positionOf) :=
  locate?_eq_some _ _ fun u hu => (bounds_readDocument o text.toList u hu).1

end MarkdownTree
