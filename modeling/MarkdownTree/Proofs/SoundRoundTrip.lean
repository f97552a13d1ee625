import MarkdownTree.Proofs.Arranged
import MarkdownTree.Proofs.RoundTrip
import MarkdownTree.Proofs.SoundDocument
import MarkdownTree.Proofs.Spread

/-!
# Sound trees come back

A text whose tree is sound is printed as a text that is read as the same tree, whatever the settings of the scanner and
the printer are, unless a carriage return ends a line that is printed, where the scanner drops it
(`scan_printTree_sound`).  Paragraphs and headings without emphasis are sound under conditions on each of their nodes
(`scan_sound_of_unstressed`).
-/

namespace MarkdownTree

open Text Scan Print

namespace Scan

/-- A document is a root with front matter, if that is looked for, and with the blocks behind it, as deep in each other
as they may be. -/
private theorem exists_documentChildren (o : ScanOptions) (text : List Char) : ∃ front ts,
    (readDocument o text).tree.erase = .node () .root (documentChildren front ts) ∧
      (front.isSome = true → o.frontMatter = true) ∧
      (∀ value ∈ front, ∀ line ∈ valueLines value.toList, closesFrontMatter line = false) ∧
      (∀ c ∈ ts.map Tree.content, c.kind.isFlow = true) ∧ ∀ t ∈ ts, t.nesting ≤ o.maxNesting := by
  obtain ⟨mid, hfit, -⟩ := splitDocument_fit o.frontMatter text
  obtain ⟨-, hfront⟩ := splitDocument_cases o.frontMatter text
  let blocks := readBlocks o o.maxNesting false (splitDocument o.frontMatter text).2
  have hflow : ∀ c ∈ (blocks.trees.map Tree.erase).map Tree.content, c.kind.isFlow = true := by
    rw [List.map_map, show Tree.content ∘ Tree.erase = Tree.content (α := Span) from funext (Tree.content_map _)]
    exact (flow_readBlocks o o.maxNesting _ _ _ _ hfit).kinds
  have hnesting : ∀ t ∈ blocks.trees.map Tree.erase, t.nesting ≤ o.maxNesting := by
    rw [← Tree.nestingList_le, Tree.nestingList_erase]
    exact nesting_readBlocks_le o o.maxNesting false _
  rw [readDocument_eq, Tree.erase_node, List.map_append]
  rcases hfront with hnil | ⟨ho, span, value, hone, hvalue⟩
  · exact ⟨none, blocks.trees.map Tree.erase, by rw [hnil]; rfl, by simp, by simp, hflow, hnesting⟩
  · refine ⟨some value, blocks.trees.map Tree.erase, by rw [hone]; rfl, fun _ => ho, ?_, hflow, hnesting⟩
    rintro _ ⟨⟩
    exact hvalue

private theorem erase_readDocument_nil (o : ScanOptions) : (readDocument o []).tree.erase = .node () .root [] := by
  have hsplit : splitDocument o.frontMatter [] = ([], []) := by
    cases hfront : o.frontMatter <;> rfl
  have hblocks : (readBlocks o o.maxNesting false []).trees = [] := by
    rw [readBlocks_eq, Setting.segments]
    rfl
  rw [readDocument_eq, hsplit, Tree.erase_node, hblocks]
  rfl

end Scan

namespace Print

/-- Lines that are printed are those of the text unless a carriage return ends one of them. -/
private theorem text_linesOf_printed {text : List Char}
    (hreturn : ∀ line ∈ fields '\n' (text ++ ['\n']), line.getLast? ≠ some '\r') :
    (linesOf (text ++ ['\n'])).map Line.text = fields '\n' text := by
  rw [fields_concat text List.not_mem_nil] at hreturn
  rw [text_linesOf_concat, List.map_congr_left fun line hline => ?_, List.map_id]
  exact if_neg (hreturn line (List.mem_append_left _ hline))

/-- Nothing is printed for a document without front matter and blocks only. -/
private theorem documentLines_eq_nil {o : ScanOptions} {front : Option String} {row : List Block}
    (hstands : ∀ d ∈ row, d.Stands o) (h : documentLines front row = [[]]) : front = none ∧ row = [] := by
  cases front with
  | some value =>
    rw [documentLines] at h
    split at h <;> cases h
  | none =>
    cases row with
    | nil => exact ⟨rfl, rfl⟩
    | cons d row =>
      obtain ⟨line, more, hd, c, hc, -⟩ := (hstands d (.head _)).head
      have hfirst : line ∈ d.lines.head? := by rw [hd]; rfl
      have hhead := head?_rowLines hfirst false row
      rw [show rowLines false (d :: row) = [[]] from h] at hhead
      cases hhead
      cases hc

end Print

/-- A text is read and its tree printed with any settings.  If all nodes of the tree are sound and no line that is
printed ends with a carriage return, then the tree comes back, and what is printed for it again is the same. -/
theorem scan_printTree_sound (o : ScanOptions) (q : PrintOptions) (path : Option String) (text : String) :
    ∃ tree printed, (Scan.scan o path text).tree = some tree ∧ printTree q tree = .ok printed ∧
      ((∀ u ∈ tree.erase.preorder, u.Sound q) → (∀ line ∈ fields '\n' printed, line.getLast? ≠ some '\r') →
        ∃ again, (Scan.scan o path (.ofList printed)).tree = some again ∧ again.erase = tree.erase ∧
          printTree q again = .ok printed) := by
  let tree := (readDocument o text.toList).tree.map (Locator.ofText text.toList).positionOf
  obtain ⟨printed, hprinted⟩ := exists_printTree q tree
  refine ⟨tree, printed, tree_scan o path text, hprinted, fun hsound hreturn => ?_⟩
  have herase : tree.erase = (readDocument o text.toList).tree.erase := Tree.erase_map _ _
  have harranged := arranged_readDocument o text
  obtain ⟨front, ts, htree, hfront, hvalue, hflow, hnesting⟩ := exists_documentChildren o text.toList
  rw [← herase] at harranged
  rw [← herase] at htree
  have hbelow {P : Tree Unit → Prop} (h : ∀ u ∈ tree.erase.preorder, P u) : ∀ u ∈ Tree.preorderList ts, P u := by
    rw [htree, Tree.forall_mem_preorder] at h
    exact Tree.forall_mem_preorderList.2 fun t ht => h.2 t (List.mem_append_right _ ht)
  obtain ⟨body, row, hbody, hlines, hrow, hstands, hmeets, hopens⟩ :=
    exists_document o q front (hbelow harranged) (hbelow hsound) hflow
  rw [← htree, printTree_congr q (s := tree.erase) (Tree.erase_map _ _), hprinted] at hbody
  cases hbody
  have hread : (readDocument o (if body.isEmpty then [] else body ++ ['\n'])).tree.erase = tree.erase := by
    split
    · rename_i hempty
      rw [List.isEmpty_iff.1 hempty] at hlines
      obtain ⟨rfl, rfl⟩ := documentLines_eq_nil hstands hlines.symm
      rw [htree, ← hrow]
      exact erase_readDocument_nil o
    · rename_i hne
      rw [if_neg hne] at hreturn
      rw [htree, ← hrow]
      refine readDocument_of_lines o hfront hvalue hstands hmeets ?_ hopens ?_
      · intro d hd
        exact hnesting _ (hrow ▸ List.mem_map_of_mem hd)
      · rw [text_linesOf_printed hreturn, hlines]
  refine ⟨_, tree_scan o path _, ?_, ?_⟩
  · rw [Tree.erase_map, String.toList_ofList, hread]
  · rw [← hprinted]
    refine printTree_congr q ?_
    rw [Tree.erase_map, String.toList_ofList, hread]

/-- Front matter, an underlined heading, lists in and behind each other, a quote and code come back. -/
theorem scan_printTree_sound_document :
    let source := "---\na: b\n---\n*c*\nd\n==\n1. e\n   - f\n2. > g\n\n~~~ h\ni\n~~~\n- j\n+ k"
    let printed := "---\na: b\n---\n\n*c*\nd\n===\n\n1. e\n   * f\n2. > g\n\n```h\ni\n```\n\n* j\n\n- k\n".toList
    ∃ tree again, (Scan.scan {} none source).tree = some tree ∧ printTree {} tree = .ok printed ∧
      (∀ u ∈ tree.erase.preorder, u.Sound {}) ∧ (∀ line ∈ fields '\n' printed, line.getLast? ≠ some '\r') ∧
      (Scan.scan {} none (.ofList printed)).tree = some again ∧ again.erase = tree.erase ∧
      printTree {} again = .ok printed := by
  intro source printed
  obtain ⟨tree, out, htree, hout, hcomes⟩ := scan_printTree_sound {} {} none source
  cases (tree_scan _ _ _).symm.trans htree
  have hprinted : printTree {} (readDocument {} source.toList).tree = .ok printed :=
    eq_ok_of_toOption (by decide +kernel)
  rw [printTree_congr {} (Tree.erase_map _ _), hprinted] at hout
  cases hout
  have hsound : ∀ u ∈ (readDocument {} source.toList).tree.erase.preorder, u.Sound {} := by decide +kernel
  have hreturn : ∀ line ∈ fields '\n' printed, line.getLast? ≠ some '\r' := by decide +kernel
  rw [Tree.erase_map] at hcomes
  obtain ⟨again, hagain, herase, hsame⟩ := hcomes hsound hreturn
  refine ⟨_, again, htree, ?_, ?_, hreturn, hagain, ?_, hsame⟩
  · rw [printTree_congr {} (Tree.erase_map _ _), hprinted]
  · rwa [Tree.erase_map]
  · rwa [Tree.erase_map]

end MarkdownTree
