import MarkdownTree.Proofs.Located

/-!
# The grammar of scanned trees

Every node of a scanned tree is grammatical (`scan_grammatical`): blocks hold blocks and words hold words, lists,
paragraphs and emphasis are not empty, texts are not empty and do not touch, and depths, numbers, languages and code
spans are as they can be written.
-/

namespace MarkdownTree

open Scan

/-- What a node of a scanned tree may look like, by its kind and those of its children. -/
structure Grammatical (o : ScanOptions) (t : Tree Position) : Prop where
  /-- Front matter stands first in the root or nowhere. -/
  root : t.kind = .root → (∀ c ∈ t.children.head?, c.kind.isFlow ∨ c.kind = .frontMatter ∧ o.frontMatter = true) ∧
    ∀ c ∈ t.children.tail, c.kind.isFlow
  container : t.kind = .blockQuote ∨ t.kind = .listItem → ∀ c ∈ t.children, c.kind.isFlow
  list : t.kind = .list → t.children ≠ [] ∧ ∀ c ∈ t.children, c.kind = .listItem
  phrasing : t.kind = .heading ∨ t.kind = .paragraph ∨ t.kind = .emphasis ∨ t.kind = .strong ∨ t.kind = .link →
    ∀ c ∈ t.children, c.kind.isInline
  nonempty : t.kind = .paragraph ∨ t.kind = .emphasis ∨ t.kind = .strong → t.children ≠ []
  leaf : t.kind.isParent = false → t.children = []
  text : ∀ value, t.content = .text value → value ≠ ""
  texts_apart : t.children.IsChain fun c d => c.kind ≠ .text ∨ d.kind ≠ .text
  inlineCode : ∀ value, t.content = .inlineCode value → value ≠ "" ∧ '\n' ∉ value.toList
  depth : ∀ depth, t.content = .heading depth → 1 ≤ depth ∧ depth ≤ 6
  /-- A list is ordered if and only if it has a start, which has at most nine digits. -/
  start : ∀ ordered start spread, t.content = .list ordered start spread →
    (ordered = true ↔ start ≠ none) ∧ ∀ n, start = some n → 0 ≤ n ∧ n ≤ 999999999
  /-- The language of a code block is a word, and without one nothing is said of the code. -/
  language : ∀ value lang details, t.content = .codeBlock value lang details →
    (∀ l, lang = some l → l ≠ "" ∧ ' ' ∉ l.toList) ∧ (lang = none → details = none)

private theorem isChain_of_flow {cs : List Content} (h : ∀ c ∈ cs, c.kind ≠ .text) : cs.IsChain Content.Apart := by
  induction cs with
  | nil => exact .nil
  | cons c cs ih =>
    obtain ⟨hc, hcs⟩ := List.forall_mem_cons.1 h
    exact (ih hcs).cons fun _ _ => .inl hc

/-- Nodes whose content agrees with that of their children have no two texts side by side. -/
private theorem isChain_of_admits {content : Content} {children : List Content} (h : content.Admits children) :
    children.IsChain Content.Apart := by
  have hflow {c : Content} (hc : c.kind.isFlow = true) : c.kind ≠ .text := by
    intro htext
    rw [htext] at hc
    cases hc
  cases content with
  | root =>
    refine isChain_of_flow fun c hc => ?_
    cases children with
    | nil => cases hc
    | cons d children =>
      rcases hc with _ | ⟨_, hc⟩
      · rcases h.1 c rfl with hfront | hc
        · simp [hfront]
        · exact hflow hc
      · exact hflow (h.2 c hc)
  | blockQuote => exact isChain_of_flow fun c hc => hflow (h c hc)
  | listItem => exact isChain_of_flow fun c hc => hflow (h c hc)
  | list => exact isChain_of_flow fun c hc => by simp [h.2.1 c hc]
  | heading => exact h.1.apart
  | paragraph => exact h.1.apart
  | emphasis => exact h.1.apart
  | strong => exact h.1.apart
  | link => exact h.apart
  | codeBlock => simp [h.1]
  | text => simp [h.1]
  | inlineCode => simp [h.1]
  | frontMatter | thematicBreak | image | lineBreak =>
    rw [show children = [] from h]
    exact .nil

/-- Nodes whose content agrees with that of their children are grammatical. -/
private theorem grammatical_of_admits {o : ScanOptions} {t : Tree Position}
    (h : t.content.Admits (t.children.map Tree.content))
    (hfront : t.kind = .root → ∀ c ∈ t.children.head?, c.kind = .frontMatter → o.frontMatter = true) :
    Grammatical o t := by
  have hchain := (List.isChain_map _).1 (isChain_of_admits h)
  obtain ⟨position, content, children⟩ := t
  have h : content.Admits (children.map Tree.content) := h
  -- The clauses about kinds come first: a node of another kind makes them empty.
  refine ⟨fun hk => ?_, fun hk => ?_, fun hk => ?_, fun hk => ?_, fun hk => ?_, fun hk => ?_, ?_, hchain, ?_, ?_, ?_,
    ?_⟩
  · cases content <;> try cases hk
    refine ⟨fun c hc => ?_, fun c hc => h.2 c.content ?_⟩
    · rcases h.1 c.content (by simpa using ⟨c, hc, rfl⟩) with hkind | hkind
      · exact .inr ⟨hkind, hfront rfl c hc hkind⟩
      · exact .inl hkind
    · rw [← List.map_tail]
      exact List.mem_map_of_mem hc
  · cases content <;> (try rcases hk with hk | hk <;> cases hk) <;> exact List.forall_mem_map.1 h
  · cases content <;> try cases hk
    exact ⟨fun hnil => h.1 (congrArg _ hnil), List.forall_mem_map.1 h.2.1⟩
  · have hphrasing : Content.Phrasing (children.map Tree.content) := by
      cases content with
      | heading | paragraph | emphasis | strong => exact h.1
      | link => exact h
      | _ => rcases hk with hk | hk | hk | hk | hk <;> cases hk
    exact List.forall_mem_map.1 hphrasing.inline
  · have hne : children.map Tree.content ≠ [] := by
      cases content with
      | paragraph | emphasis | strong => exact h.2
      | _ => rcases hk with hk | hk | hk <;> cases hk
    exact fun hnil => hne (congrArg _ hnil)
  · exact List.map_eq_nil_iff.1 (h.eq_nil hk)
  · rintro value ⟨⟩
    exact h.2
  · rintro value ⟨⟩
    exact h.2
  · rintro depth ⟨⟩
    exact h.2
  · rintro ordered start spread ⟨⟩
    exact ⟨by simp [h.2.2.1, Option.isSome_iff_ne_none], h.2.2.2⟩
  · rintro value lang details ⟨⟩
    exact h.2

/-- Front matter stands in a root only if it is looked for. -/
private theorem frontMatter_readDocument {o : ScanOptions} {text : List Char} {u v : Tree Span}
    (hu : u ∈ (readDocument o text).tree.preorder) (hroot : u.kind = .root) (hv : v ∈ u.children)
    (hkind : v.kind = .frontMatter) : o.frontMatter = true := by
  obtain ⟨front, blocks, mid, hchildren, hblocks, -, -, hfront⟩ := readDocument_children o text
  rw [Tree.preorder_eq] at hu
  rcases hu with _ | ⟨_, hu⟩
  · rw [hchildren] at hv
    rcases List.mem_append.1 hv with hv | hv
    · rcases hfront with rfl | ⟨ho, -⟩
      · cases hv
      · exact ho
    · have := hblocks.flow v hv
      rw [hkind] at this
      cases this
  · exact absurd hroot (kind_ne_root (regular_readDocument o text) u hu)

/-- Every node of a scanned tree is grammatical. -/
theorem scan_grammatical (o : ScanOptions) (path : Option String) (text : String) :
    ∃ tree, (Scan.scan o path text).tree = some tree ∧ tree.kind = .root ∧ ∀ t ∈ tree.preorder, Grammatical o t := by
  refine ⟨_, tree_scan o path text, Tree.kind_map _ _, ?_⟩
  rw [Tree.preorder_map, List.forall_mem_map]
  intro u hu
  have hregular := regular_readDocument o text.toList u hu
  refine grammatical_of_admits ?_ fun hroot => ?_
  · simpa only [Tree.content_map, Tree.children_map, List.map_map, Function.comp_def] using hregular.admits
  · rw [Tree.kind_map] at hroot
    rw [Tree.children_map, List.head?_map]
    rintro c hc hkind
    obtain ⟨v, hv, rfl⟩ := Option.map_eq_some_iff.1 hc
    rw [Tree.kind_map] at hkind
    exact frontMatter_readDocument hu hroot (List.mem_of_head? hv) hkind

end MarkdownTree
