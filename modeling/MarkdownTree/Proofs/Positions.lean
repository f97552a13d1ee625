import MarkdownTree.Proofs.Event

/-!
# Nested positions

Scanning a text fails on no text.  It gives a tree at whose top stands a root, and every node of the tree has a position
in the text, with its children inside it and one after the other; the warnings have positions in the text as well
(`scan_nested`).
-/

namespace MarkdownTree

open Scan

/-- A node stands in a text of the given length, and its children stand inside it, one after the other. -/
structure Nested (length : Nat) (t : Tree Position) : Prop where
  start_nonneg : 0 ≤ t.note.start.offset
  start_le_stop : t.note.start.offset ≤ t.note.stop.offset
  stop_le : t.note.stop.offset ≤ length
  inside : ∀ c ∈ t.children, t.note.start.offset ≤ c.note.start.offset ∧ c.note.stop.offset ≤ t.note.stop.offset
  apart : t.children.Pairwise fun c d => c.note.stop.offset ≤ d.note.start.offset

/-- Regular nodes are nested when their spans become positions. -/
private theorem nested_of_regular {text : List Char} {t : Tree Span} (h : Regular text t) :
    Nested text.length (t.map (Locator.ofText text).positionOf) := by
  have hle := h.within.le
  have hbounds (c : Tree Span) (hc : c ∈ t.children) := h.within.bounds (List.mem_map_of_mem hc)
  refine ⟨?_, ?_, ?_, ?_, ?_⟩
    <;> simp only [Tree.note_map, Tree.children_map, Locator.start_positionOf, Locator.stop_positionOf, Locator.ofText]
  · omega
  · omega
  · omega
  · intro c hc
    obtain ⟨u, hu, rfl⟩ := List.mem_map.1 hc
    have := hbounds u hu
    simp only [Tree.note_map, Locator.start_positionOf, Locator.stop_positionOf]
    omega
  · rw [List.pairwise_map]
    refine (List.pairwise_map.1 h.within.pairwise).imp fun {c d} hcd => ?_
    simp only [Tree.note_map, Locator.start_positionOf, Locator.stop_positionOf]
    omega

/-- The warning about a note has a position in the text. -/
private theorem position_diagnostic (text : List Char) (n : Note) :
    ∃ p, (n.diagnostic (.ofText text)).position = some p ∧ 0 ≤ p.start.offset ∧ p.start.offset ≤ p.stop.offset ∧
      p.stop.offset ≤ text.length := by
  -- Points are cut off at the end of the text, and a warning ends no earlier than it starts.
  refine ⟨_, rfl, ?_⟩
  simp only [Locator.offset_pointAt, Locator.ofText]
  omega

/-- A scan never fails, its positions are nested, and its events build its tree. -/
theorem scan_nested (o : ScanOptions) (f : File) (text : String) :
    ∃ tree warnings log,
      File.scan o { f with source := .text text }
        = (.ok tree, { f with source := .text text, messages := f.messages ++ warnings }, log) ∧
      tree.kind = .root ∧ (∀ t ∈ tree.preorder, Nested text.length t) ∧
      (∀ d ∈ warnings, ∃ p, d.position = some p ∧ 0 ≤ p.start.offset ∧ p.start.offset ≤ p.stop.offset ∧
        p.stop.offset ≤ text.length) ∧
      Event.build (.ofText text.toList) (Event.ofTree (readDocument o text.toList).tree)
        = .ok (.ofTree (tree.map some)) := by
  have hregular := regular_readDocument o text.toList
  refine ⟨(readDocument o text.toList).tree.map (Locator.ofText text.toList).positionOf,
    (Scan.scan o f.path text).warnings, (Scan.scan o f.path text).log, ?_, ?_, ?_, ?_, ?_⟩
  · simp only [File.scan, File.decode, tree_scan]
  · rw [Tree.kind_map]
    rfl
  · rw [Tree.preorder_map, List.forall_mem_map, ← String.length_toList]
    exact fun t ht => nested_of_regular (hregular t ht)
  · rw [← String.length_toList]
    simp only [Scan.scan, List.forall_mem_map]
    exact fun n _ => position_diagnostic text.toList n
  · rw [Tree.map_map]
    exact Event.build_ofTree _ hregular rfl

end MarkdownTree
