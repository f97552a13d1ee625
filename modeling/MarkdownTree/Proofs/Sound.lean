import MarkdownTree.Proofs.Intact
import MarkdownTree.Proofs.ItemMarker
import MarkdownTree.Proofs.Slashed
import MarkdownTree.Proofs.Standing

/-!
# Sound trees

Some nodes are printed as something else: a paragraph whose delimiters lean on the wrong words, a fence that goes on
with tildes, nested empty items that make a rule, a list before a paragraph that goes on with its last item.  A node is
sound if nothing of that kind happens to it (`Tree.Sound`); it depends on the settings of the printer, and it can be
computed.  Scanned trees keep some rules on top of their grammar (`Tree.Arranged`), which exclude more of the kind.

The lines of sound paragraphs, headings, rules and code blocks stand in rows (`exists_leaf`).
-/

namespace MarkdownTree

open Text Scan Print

namespace Print

variable (q : PrintOptions)

/-- What inline content is printed as passes the check that it reads back. -/
def survives (atx : Bool) (ts : List (Tree Unit)) : Bool :=
  isIntact atx (phrase atx (Draft.ofTrees (unplaced ts))) (inlineText q atx ts)

/-- Behind heading marks, inline content passes the check and loses no blanks at its ends. -/
def survivesMarked (ts : List (Tree Unit)) : Bool :=
  survives q true ts && trim (inlineText q true ts) == inlineText q true ts

/-- The first character of what a fence says is not its mark. -/
def endsFence (lang details : Option String) : Bool :=
  (infoOf lang details).head? != some (fenceMark q.fence (infoOf lang details))

end Print

namespace Tree

/-- A heading is underlined wherever it does not stand directly below a paragraph. -/
def isUnderlined (q : PrintOptions) (t : Tree Unit) : Bool :=
  match t.content with
  | .heading depth => Decidable.decide (depth ≤ 2) && (q.setext || t.children.any breaksLine) && !t.children.isEmpty
  | _ => false

/-- A block does not go on with the block directly above it: no paragraph or underlined heading with the last item of a
list, no heading with a paragraph, and a lone hyphen is no item below a paragraph. -/
def Stops (q : PrintOptions) (c d : Tree Unit) : Prop :=
  (c.kind = .list → d.kind ≠ .paragraph ∧ d.isUnderlined q = false) ∧
    (c.kind = .paragraph →
      (d.kind = .heading → survivesMarked q d.children = true) ∧ ¬(q.bullet = .hyphen ∧ d.marks = 1))

instance (q : PrintOptions) : DecidableRel (Stops q) := fun c d => by
  unfold Stops
  infer_instance

/-- A node is printed as what it is. -/
def Sound (q : PrintOptions) (t : Tree Unit) : Prop :=
  match t.content with
  | .paragraph => survives q false t.children = true
  | .heading _ => if t.isUnderlined q then survives q false t.children = true else survivesMarked q t.children = true
  | .codeBlock _ lang details => endsFence q lang details = true
  | .list _ start _ =>
    match start with
    | some n => n + t.children.length ≤ 1000000000
    | none => q.bullet = .plus ∨ ∀ item ∈ t.children, item.marks < 3
  | .listItem false _ => t.children.IsChain (Stops q)
  | .link .. | .image .. => ¬t.content.HoldsNewline
  | _ => True

instance (q : PrintOptions) : DecidablePred (Sound q) := fun t => by
  unfold Sound
  split
  · infer_instance
  · infer_instance
  · infer_instance
  · split <;> infer_instance
  · infer_instance
  · infer_instance
  · infer_instance
  · infer_instance

/-- Two blocks of a tight item that cannot have been read as one, or as an underlined heading of several lines. -/
def Parted (c d : Tree Unit) : Prop :=
  ¬(c.kind = .paragraph ∧ (d.kind = .paragraph ∨ d.kind = .heading ∧ d.children.any breaksLine = true)) ∧
    ¬(c.kind = .blockQuote ∧ d.kind = .blockQuote)

/-- What the scanner keeps on top of its grammar: headings of several lines are underlined, what a fence says is words,
and a list is spread if items stand apart in it or blocks in one of them. -/
def Scannable (t : Tree Unit) : Prop :=
  match t.content with
  | .heading depth => t.children.any breaksLine = true → depth ≤ 2
  | .codeBlock _ lang details => IsWords (lang.map String.toList) (details.map String.toList) ∧ '\n' ∉ infoOf lang details
  | .list _ _ spread =>
    (spread = true → 2 ≤ t.children.length ∨ t.children.any isSpread = true) ∧
      (t.children.any isSpread = true → spread = true)
  | .listItem spread checked =>
    (checked ≠ none → t.children ≠ []) ∧ if spread then hasLeader t.children = true else t.children.IsChain Parted
  | _ => True

/-- What holds of the nodes that are read. -/
structure Arranged (t : Tree Unit) : Prop where
  scannable : t.Scannable
  legible : Legible t
  admits : t.content.Admits (t.children.map content)

end Tree

namespace Print

/-! ### Inline content -/

variable (q : PrintOptions) {content : Content} {ts : List (Tree Unit)}

section

variable (h : ∀ u ∈ (Tree.node () content ts).preorder, u.Arranged)
  (hkind : content.kind = .paragraph ∨ content.kind = .heading)
include h hkind

theorem inline_unplaced : ∀ u ∈ Tree.preorderList (unplaced ts), u.kind.isInline = true := by
  have hbelow := Tree.inline_below (fun u hu => (h u hu).legible.composed) (hkind.symm.imp_right .inl)
  rw [unplaced, Tree.preorderList_mapList, List.forall_mem_map]
  intro u hu
  rw [Tree.kind_map]
  exact hbelow u hu

theorem isPhrase_children : IsPhrase ts := by
  obtain ⟨hnode, hbelow⟩ := Tree.forall_mem_preorder.1 h
  have hadmits : content.Admits (ts.map Tree.content) := hnode.admits
  refine ⟨?_, Tree.forall_mem_preorderList.2 fun t ht u hu => (hbelow t ht u hu).admits⟩
  cases content with
  | paragraph => exact hadmits.1
  | heading => exact hadmits.1
  | _ => rcases hkind with hkind | hkind <;> cases hkind

theorem writes_inlineText (atx : Bool) : Writes atx true ts (inlineText q atx ts) := by
  have hinline := inline_unplaced h hkind
  obtain ⟨x, pen, hrun, -, -, -, hwrites⟩ := yields_inlineContent q hinline atx {} { atx } ⟨false, rfl⟩ rfl
  obtain ⟨around, -, hrun'⟩ := inlineContent_eq q hinline {} { atx } ⟨false, rfl⟩ rfl
  cases hrun.symm.trans hrun'
  have hplaced := hwrites.map fun _ => ()
  rwa [unplaced, Tree.mapList_mapList, show Tree.mapList (fun _ => ()) ts = ts from Tree.mapList_id ts] at hplaced

omit hkind in
theorem neat_children : ∀ u ∈ Tree.preorderList ts, u.Neat :=
  Tree.forall_mem_preorderList.2 fun t ht u hu => ((Tree.forall_mem_preorder.1 h).2 t ht u hu).legible.neat

/-- Content that survives is read as it is from the lines that it is printed on. -/
theorem erase_readInline_lines (hsurvives : survives q false ts = true) {ls : List Line}
    (hls : ls.map Line.text = fields '\n' (inlineText q false ts)) :
    (readInline (contentOf (Setting.paragraphLines ls))).trees.map Tree.erase = ts := by
  rw [Setting.contentOf_paragraphLines hls]
  exact erase_readInline_of_isIntact (isPhrase_children h hkind) (by simp) (by simp) hsurvives

variable (hplain : ∀ u ∈ Tree.preorderList ts, ¬u.content.HoldsNewline)
include hplain

theorem quiet_inlineText (hne : ts ≠ []) : ∀ line ∈ fields '\n' (inlineText q false ts), IsQuiet line := by
  obtain ⟨hrow, hlast⟩ := (Tree.forall_mem_preorder.1 h).1.legible.neat.row (hkind.imp_right .inl) true
  exact quiet_of_writes (neat_children h) hrow hlast hplain (writes_inlineText q h hkind false) hne

theorem newline_notMem_inlineText : '\n' ∉ inlineText q true ts := by
  rw [(writes_inlineText q h hkind true).newline_iff (neat_children h)]
  rintro ⟨u, hu, hholds⟩
  exact hplain u hu hholds

/-- Content that survives behind heading marks is read as it is from behind them. -/
theorem erase_readInline_marked (hbreaks : ts.any Tree.breaksLine = false) (hsurvives : survivesMarked q ts = true)
    {depth : Nat} (hdepth : depth ≠ 0) {more : List Char}
    (hmore : atxText q.closeAtx (List.replicate depth '#') (inlineText q true ts) = List.replicate depth '#' ++ more) :
    (readInline (headingText (trimStart more))).trees.map Tree.erase = ts := by
  rw [survivesMarked, Bool.and_eq_true, beq_iff_eq] at hsurvives
  obtain ⟨hintact, htrim⟩ := hsurvives
  have hread := erase_readInline_of_isIntact (isPhrase_children h hkind) (fun _ => hbreaks)
    (fun _ => newline_notMem_inlineText q h hkind hplain) hintact
  have hhash := (writes_inlineText q h hkind true).keepsHash
  rw [contentLines, if_pos rfl, join, htrim] at hread
  generalize inlineText q true ts = x at *
  suffices htext : headingText (trimStart more) = x by rw [htext, hread]
  by_cases hne : x = []
  · subst hne
    have hnil : more = [] := List.append_cancel_left (hmore.symm.trans (List.append_nil _).symm)
    rw [hnil]
    rfl
  · obtain ⟨⟨c, hc, hblank⟩, hlast⟩ := isTrimmed_iff.2 ⟨hne, htrim⟩
    rw [atxText_eq q hne] at hmore
    obtain rfl := List.append_cancel_left hmore
    obtain ⟨cs, rfl⟩ := List.head?_eq_some_iff.1 hc
    have hstart : trimStart (' ' :: (c :: cs ++ Leaf.closing q depth)) = c :: cs ++ Leaf.closing q depth := by
      rw [trimStart, List.dropWhile_cons_of_pos (by decide), List.cons_append,
        List.dropWhile_cons_of_neg (by simp [hblank])]
    rw [hstart, Leaf.closing]
    cases q.closeAtx with
    | false =>
      rw [if_neg (by decide), List.append_nil]
      exact headingText_eq_self hhash hlast
    | true =>
      rw [if_pos rfl]
      exact headingText_closed hlast (Nat.pos_of_ne_zero hdepth)

end

end Print

end MarkdownTree
