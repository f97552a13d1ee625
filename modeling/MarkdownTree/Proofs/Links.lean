import MarkdownTree.Proofs.Located

/-!
# Links in links

Once a link is read no bracket before it opens a link any more, but only for links that are written with brackets.  So
links do stand in links: an address between angle brackets does where it stands between the brackets of another link
(`nestsLinks_autolink`).  This is the one way in which they do (`nestsLinks_scan`).
-/

namespace MarkdownTree

open Scan

namespace Tree

/-- A link that is written with brackets. -/
def IsBracketed (text : List Char) (t : Tree Position) : Prop :=
  t.kind = .link ∧ (t.note.slice text).head? = some '['

/-- A link that is an address between angle brackets. -/
def IsAutolink (text : List Char) (t : Tree Position) : Prop :=
  t.kind = .link ∧ (t.note.slice text).head? = some '<'

/-- Some link of the tree has a link below it. -/
def NestsLinks (t : Tree Position) : Prop :=
  ∃ outer ∈ t.preorder, outer.kind = .link ∧ ∃ inner ∈ outer.descendants, inner.kind = .link

instance (t : Tree Position) : Decidable t.NestsLinks :=
  inferInstanceAs (Decidable (∃ _ ∈ _, _ ∧ ∃ _ ∈ _, _))

end Tree

/-- A link of a document starts, once it has a position, with the character at the start of its span. -/
private theorem head?_slice_link {o : ScanOptions} {text : List Char} {u : Tree Span}
    (hu : u ∈ (readDocument o text).tree.preorder) (hlink : u.kind = .link) :
    ((u.map (Locator.ofText text).positionOf).note.slice text).head? = text[u.note.start]? := by
  rw [Tree.note_map]
  exact head?_slice ((regular_readDocument o text u hu).linked hlink).1 (bounds_readDocument o text u hu).2

/-- Links are written with brackets or stand between angle brackets, and links that stand in links are of the second
kind in one of the first. -/
private theorem links_readDocument {o : ScanOptions} {text : List Char} {u : Tree Span}
    (hu : u ∈ (readDocument o text).tree.preorder) (hlink : u.kind = .link) :
    let t := u.map (Locator.ofText text).positionOf
    (t.IsBracketed text ∨ t.IsAutolink text) ∧
      ∀ inner ∈ t.descendants, inner.kind = .link → t.IsBracketed text ∧ inner.IsAutolink text := by
  intro t
  have hhead := head?_slice_link hu hlink
  have hkind : t.kind = .link := (Tree.kind_map _ u).trans hlink
  -- Nodes below a link start with the same characters once they have positions, as they stand in the same text.
  rcases ((regular_readDocument o text u hu).linked hlink).2 with ⟨hstart, hbelow⟩ | ⟨hstart, hbelow⟩
  · have ht : t.IsBracketed text := ⟨hkind, hhead.trans hstart⟩
    refine ⟨.inl ht, fun inner hinner hinnerLink => ⟨ht, hinnerLink, ?_⟩⟩
    rw [Tree.descendants_map] at hinner
    obtain ⟨v, hv, rfl⟩ := List.mem_map.1 hinner
    rw [Tree.kind_map] at hinnerLink
    have hmem : v ∈ u.preorder := by
      rw [Tree.preorder_eq]
      exact .tail _ hv
    exact (head?_slice_link (Tree.mem_preorder_trans hu hmem) hinnerLink).trans (hbelow v hv hinnerLink)
  · refine ⟨.inr ⟨hkind, hhead.trans hstart⟩, fun inner hinner hinnerLink => ?_⟩
    rw [Tree.descendants_map] at hinner
    obtain ⟨v, hv, rfl⟩ := List.mem_map.1 hinner
    rw [Tree.kind_map] at hinnerLink
    exact absurd hinnerLink (hbelow v hv)

/-- Links stand in links exactly where an address between angle brackets stands in a link that is written with
brackets: no other link stands in a link, and no other link has links in it. -/
theorem nestsLinks_scan (o : ScanOptions) (path : Option String) (text : String) :
    ∃ tree, (Scan.scan o path text).tree = some tree ∧
      (∀ t ∈ tree.preorder, t.kind = .link → t.IsBracketed text.toList ∨ t.IsAutolink text.toList) ∧
      (∀ outer ∈ tree.preorder, outer.kind = .link → ∀ inner ∈ outer.descendants, inner.kind = .link →
        outer.IsBracketed text.toList ∧ inner.IsAutolink text.toList) ∧
      (tree.NestsLinks ↔ ∃ outer ∈ tree.preorder, outer.IsBracketed text.toList ∧
        ∃ inner ∈ outer.descendants, inner.IsAutolink text.toList) := by
  refine ⟨_, tree_scan o path text, ?_⟩
  have hlinks : ∀ t ∈ ((readDocument o text.toList).tree.map (Locator.ofText text.toList).positionOf).preorder,
      t.kind = .link → (t.IsBracketed text.toList ∨ t.IsAutolink text.toList) ∧
        ∀ inner ∈ t.descendants, inner.kind = .link → t.IsBracketed text.toList ∧ inner.IsAutolink text.toList := by
    rw [Tree.preorder_map, List.forall_mem_map]
    intro u hu hlink
    rw [Tree.kind_map] at hlink
    exact links_readDocument hu hlink
  refine ⟨fun t ht hlink => (hlinks t ht hlink).1, fun t ht hlink => (hlinks t ht hlink).2, ?_, ?_⟩
  · rintro ⟨outer, houter, hlink, inner, hinner, hinnerLink⟩
    obtain ⟨hbracketed, hautolink⟩ := (hlinks outer houter hlink).2 inner hinner hinnerLink
    exact ⟨outer, houter, hbracketed, inner, hinner, hautolink⟩
  · rintro ⟨outer, houter, hbracketed, inner, hinner, hautolink⟩
    exact ⟨outer, houter, hbracketed.1, inner, hinner, hautolink.1⟩

/-- An address between angle brackets in a link that is written with brackets. -/
theorem nestsLinks_autolink :
    ∃ tree, (Scan.scan {} none "[<ab:>](b)").tree = some tree ∧ tree.NestsLinks := by
  have hnests : (Scan.scan {} none "[<ab:>](b)").tree.any (fun t => t.NestsLinks) = true := by decide +kernel
  obtain ⟨tree, htree, hlinks⟩ := (Option.any_eq_true _ _).1 hnests
  exact ⟨tree, htree, of_decide_eq_true hlinks⟩

end MarkdownTree
