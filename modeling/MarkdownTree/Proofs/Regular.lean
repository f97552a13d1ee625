import Mathlib.Data.List.Chain
import MarkdownTree.Proofs.Tree
import MarkdownTree.Scan.Anomaly

/-!
# Regular nodes

What the scanner promises about every node of its trees: the children stand inside the node and one after the other
(`Between`), the node's content agrees with that of its children (`Content.Admits`), and links are written in one of two
ways, of which only one has links inside it and only the other stands inside links (`Linked`).  All of it depends on a
node and what is below it only, so it moves along with places (`Regular.map`).
-/

namespace MarkdownTree

/-- Spans that come one after the other between two places. -/
def Between : Nat → List Span → Nat → Prop
  | lo, [], hi => lo ≤ hi
  | lo, s :: ss, hi => lo ≤ s.start ∧ s.start ≤ s.stop ∧ Between s.stop ss hi

namespace Between

variable {lo hi : Nat} {s : Span} {ss ts : List Span}

theorem le (h : Between lo ss hi) : lo ≤ hi := by
  induction ss generalizing lo with
  | nil => exact h
  | cons s ss ih => exact h.1.trans (h.2.1.trans (ih h.2.2))

theorem mono {lo' hi' : Nat} (h : Between lo ss hi) (hlo : lo' ≤ lo) (hhi : hi ≤ hi') : Between lo' ss hi' := by
  induction ss generalizing lo lo' with
  | nil => exact hlo.trans (h.trans hhi)
  | cons s ss ih => exact ⟨hlo.trans h.1, h.2.1, ih h.2.2 (Nat.le_refl _)⟩

theorem append {mid : Nat} (h : Between lo ss mid) (h' : Between mid ts hi) : Between lo (ss ++ ts) hi := by
  induction ss generalizing lo with
  | nil => exact h'.mono h (Nat.le_refl _)
  | cons s ss ih => exact ⟨h.1, h.2.1, ih h.2.2⟩

theorem bounds (h : Between lo ss hi) (hs : s ∈ ss) : lo ≤ s.start ∧ s.start ≤ s.stop ∧ s.stop ≤ hi := by
  induction ss generalizing lo with
  | nil => cases hs
  | cons t ss ih =>
    rcases hs with _ | ⟨_, hs⟩
    · exact ⟨h.1, h.2.1, h.2.2.le⟩
    · have := ih h.2.2 hs
      exact ⟨h.1.trans (h.2.1.trans this.1), this.2⟩

theorem pairwise (h : Between lo ss hi) : ss.Pairwise fun a b => a.stop ≤ b.start := by
  induction ss generalizing lo with
  | nil => exact .nil
  | cons s ss ih => exact List.pairwise_cons.2 ⟨fun t ht => (h.2.2.bounds ht).1, ih h.2.2⟩

theorem map {f : Nat → Nat} (hf : ∀ i j, i ≤ j → f i ≤ f j) (h : Between lo ss hi) :
    Between (f lo) (ss.map fun s => ⟨f s.start, f s.stop⟩) (f hi) := by
  induction ss generalizing lo with
  | nil => exact hf _ _ h
  | cons s ss ih => exact ⟨hf _ _ h.1, hf _ _ h.2.1, ih h.2.2⟩

end Between

namespace Kind

/-- Kinds that stand among the words of a text. -/
def isInline : Kind → Bool
  | text | emphasis | strong | inlineCode | link | image | lineBreak => true
  | _ => false

/-- Kinds of blocks that stand anywhere among blocks. -/
def isFlow : Kind → Bool
  | heading | paragraph | codeBlock | blockQuote | list | thematicBreak => true
  | _ => false

end Kind

namespace Content

/-- Two neighbours that are not both text. -/
def Apart (c d : Content) : Prop :=
  c.kind ≠ .text ∨ d.kind ≠ .text

/-- Inline content in which no text stands next to another. -/
structure Phrasing (cs : List Content) : Prop where
  inline : ∀ c ∈ cs, c.kind.isInline
  apart : cs.IsChain Apart

/-- A node may say this when its children say that. -/
def Admits (children : List Content) : Content → Prop
  | .root =>
    (∀ c ∈ children.head?, c.kind = .frontMatter ∨ c.kind.isFlow) ∧ ∀ c ∈ children.tail, c.kind.isFlow
  | .blockQuote | .listItem .. => ∀ c ∈ children, c.kind.isFlow
  | .list ordered start _ =>
    children ≠ [] ∧ (∀ c ∈ children, c.kind = .listItem) ∧ ordered = start.isSome ∧
      ∀ n ∈ start, 0 ≤ n ∧ n ≤ 999999999
  | .heading depth => Phrasing children ∧ 1 ≤ depth ∧ depth ≤ 6
  | .paragraph | .emphasis | .strong => Phrasing children ∧ children ≠ []
  | .link .. => Phrasing children
  | .codeBlock _ lang details =>
    children = [] ∧ (∀ l ∈ lang, l ≠ "" ∧ ' ' ∉ l.toList) ∧ (lang = none → details = none)
  | .text value => children = [] ∧ value ≠ ""
  | .inlineCode value => children = [] ∧ value ≠ "" ∧ '\n' ∉ value.toList
  | .frontMatter _ | .thematicBreak | .image .. | .lineBreak => children = []

/-- Kinds without children have none. -/
theorem Admits.eq_nil {content : Content} {children : List Content} (h : content.Admits children)
    (hleaf : content.kind.isParent = false) : children = [] := by
  cases content with
  | codeBlock => exact h.1
  | text => exact h.1
  | inlineCode => exact h.1
  | frontMatter | thematicBreak | image | lineBreak => exact h
  | _ => cases hleaf

/-- Nothing holds roots. -/
private theorem Admits.kind_ne_root {content : Content} {children : List Content} (h : content.Admits children) :
    ∀ c ∈ children, c.kind ≠ .root := by
  have hflow {c : Content} (hc : c.kind.isFlow = true) : c.kind ≠ .root := fun hroot => by
    simp [hroot, Kind.isFlow] at hc
  have hphrasing (hp : Phrasing children) : ∀ c ∈ children, c.kind ≠ .root := fun c hc hroot => by
    have := hp.inline c hc
    simp [hroot, Kind.isInline] at this
  cases content with
  | root =>
    cases children with
    | nil => simp
    | cons d children =>
      refine List.forall_mem_cons.2 ⟨?_, fun c hc => hflow (h.2 c hc)⟩
      rcases h.1 d rfl with hfront | hd
      · simp [hfront]
      · exact hflow hd
  | blockQuote | listItem => exact fun c hc => hflow (h c hc)
  | list => exact fun c hc => by simp [h.2.1 c hc]
  | heading | paragraph | emphasis | strong => exact hphrasing h.1
  | link => exact hphrasing h
  | codeBlock | text | inlineCode => simp [h.1]
  | frontMatter | thematicBreak | image | lineBreak =>
    rw [show children = [] from h]
    simp

end Content

/-- A link starts with a square bracket and holds links between angle brackets only, or it stands between angle brackets
and holds no link. -/
def Linked (source : List Char) (t : Tree Span) : Prop :=
  t.kind = .link → t.note.start < t.note.stop ∧
    ((source[t.note.start]? = some '[' ∧ ∀ u ∈ t.descendants, u.kind = .link → source[u.note.start]? = some '<') ∨
      (source[t.note.start]? = some '<' ∧ ∀ u ∈ t.descendants, u.kind ≠ .link))

/-- What holds of every node that is read from a source. -/
structure Regular (source : List Char) (t : Tree Span) : Prop where
  within : Between t.note.start (t.children.map Tree.note) t.note.stop
  admits : t.content.Admits (t.children.map Tree.content)
  linked : Linked source t

/-- A node that is no link. -/
theorem Linked.of_kind {source : List Char} {t : Tree Span} (h : t.kind ≠ .link) : Linked source t :=
  fun hlink => absurd hlink h

/-- All nodes of a tree are regular when those of the children are and the top, which is no link, fits them. -/
theorem regular_node {source : List Char} {span : Span} {content : Content} {children : List (Tree Span)}
    (hwithin : Between span.start (children.map Tree.note) span.stop)
    (hadmits : content.Admits (children.map Tree.content)) (hlink : content.kind ≠ .link)
    (hchildren : ∀ s ∈ children, ∀ u ∈ s.preorder, Regular source u) :
    ∀ u ∈ (Tree.node span content children).preorder, Regular source u :=
  Tree.forall_mem_preorder.2 ⟨⟨hwithin, hadmits, .of_kind hlink⟩, hchildren⟩

theorem regular_leaf {source : List Char} {span : Span} {content : Content} (hle : span.start ≤ span.stop)
    (hadmits : content.Admits []) (hlink : content.kind ≠ .link) :
    ∀ u ∈ (Tree.node span content []).preorder, Regular source u :=
  regular_node hle hadmits hlink (by simp)

mutual

/-- Nodes stand inside every node above them. -/
theorem regular_bounds {source : List Char} : ∀ {t : Tree Span}, (∀ u ∈ t.preorder, Regular source u) →
    ∀ u ∈ t.preorder, t.note.start ≤ u.note.start ∧ u.note.start ≤ u.note.stop ∧ u.note.stop ≤ t.note.stop
  | .node span content children, h => by
    obtain ⟨htop, hchildren⟩ := Tree.forall_mem_preorder.1 h
    rw [Tree.preorder_eq, List.forall_mem_cons]
    exact ⟨⟨Nat.le_refl _, htop.within.le, Nat.le_refl _⟩, regularList_bounds htop.within hchildren⟩

private theorem regularList_bounds {source : List Char} {lo hi : Nat} : ∀ {ts : List (Tree Span)},
    Between lo (ts.map Tree.note) hi → (∀ t ∈ ts, ∀ u ∈ t.preorder, Regular source u) →
    ∀ u ∈ Tree.preorderList ts, lo ≤ u.note.start ∧ u.note.start ≤ u.note.stop ∧ u.note.stop ≤ hi
  | [], _, _ => by simp [Tree.preorderList]
  | t :: ts, hbetween, h => by
    obtain ⟨ht, hts⟩ := List.forall_mem_cons.1 h
    obtain ⟨hlo, -, hrest⟩ := hbetween
    have htop := regular_bounds ht
    have hbelow := regularList_bounds hrest hts
    have hle := hrest.le
    rw [Tree.preorderList, List.forall_mem_append]
    constructor
    · intro u hu
      have := htop u hu
      omega
    · intro u hu
      have := hbelow u hu
      have := htop t (Tree.mem_preorder_self t)
      omega

end

mutual

/-- Roots stand at the top only. -/
theorem kind_ne_root {source : List Char} : ∀ {t : Tree Span}, (∀ u ∈ t.preorder, Regular source u) →
    ∀ u ∈ t.descendants, u.kind ≠ .root
  | .node span content children, h => by
    obtain ⟨htop, hchildren⟩ := Tree.forall_mem_preorder.1 h
    have hkinds (t : Tree Span) (ht : t ∈ children) : t.kind ≠ .root :=
      htop.admits.kind_ne_root t.content (List.mem_map_of_mem ht)
    exact kindList_ne_root hkinds hchildren

private theorem kindList_ne_root {source : List Char} : ∀ {ts : List (Tree Span)}, (∀ t ∈ ts, t.kind ≠ .root) →
    (∀ t ∈ ts, ∀ u ∈ t.preorder, Regular source u) → ∀ u ∈ Tree.preorderList ts, u.kind ≠ .root
  | [], _, _ => by simp [Tree.preorderList]
  | t :: ts, hkinds, h => by
    obtain ⟨hkind, hkinds⟩ := List.forall_mem_cons.1 hkinds
    obtain ⟨ht, hts⟩ := List.forall_mem_cons.1 h
    rw [Tree.preorderList, List.forall_mem_append, Tree.preorder_eq, List.forall_mem_cons]
    exact ⟨⟨hkind, kind_ne_root ht⟩, kindList_ne_root hkinds hts⟩

end

/-- Regular nodes stay regular where places move to later places of a source with the same characters, line feeds
apart. -/
theorem Regular.map {text source : List Char} {f : Nat → Nat} (hf : ∀ i j, i < j → f i < f j)
    (hchar : ∀ i c, text[i]? = some c → c ≠ '\n' → source[f i]? = some c) {t : Tree Span} (h : Regular text t) :
    Regular source (t.map fun s => ⟨f s.start, f s.stop⟩) := by
  have hmono : ∀ i j, i ≤ j → f i ≤ f j := by
    intro i j hij
    rcases Nat.lt_or_eq_of_le hij with hlt | rfl
    · exact Nat.le_of_lt (hf i j hlt)
    · exact Nat.le_refl _
  refine ⟨?_, ?_, fun hlink => ?_⟩
  · have := h.within.map hmono
    simpa only [Tree.note_map, Tree.children_map, List.map_map, Function.comp_def] using this
  · have := h.admits
    simpa only [Tree.content_map, Tree.children_map, List.map_map, Function.comp_def] using this
  · rw [Tree.kind_map] at hlink
    obtain ⟨hlt, hcases⟩ := h.linked hlink
    simp only [Tree.note_map, Tree.descendants_map, List.forall_mem_map, Tree.kind_map]
    refine ⟨hf _ _ hlt, ?_⟩
    rcases hcases with ⟨hstart, hbelow⟩ | ⟨hstart, hbelow⟩
    · exact .inl ⟨hchar _ _ hstart (by decide), fun u hu hulink => hchar _ _ (hbelow u hu hulink) (by decide)⟩
    · exact .inr ⟨hchar _ _ hstart (by decide), hbelow⟩

end MarkdownTree
