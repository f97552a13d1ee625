import MarkdownTree.Proofs.Content
import MarkdownTree.Proofs.Inline
import MarkdownTree.Proofs.Regular

/-!
# Phrases

The trees of a row of pieces: words that stand next to each other are one text node, so the trees are inline content
that goes from one end of the row to the other, and all their nodes are regular (`phrase_trees`).  Inline content is
read as a phrase (`phrase_readInline`), and in the source it is one from the start of its lines to their end
(`phrase_readLines`).
-/

namespace MarkdownTree.Scan

open Text Piece

/-- Trees that are inline content between two places of a text, with regular nodes. -/
structure Phrase (text : List Char) (lo : Nat) (ts : List (Tree Span)) (hi : Nat) : Prop where
  between : Between lo (ts.map Tree.note) hi
  phrasing : Content.Phrasing (ts.map Tree.content)
  regular : ∀ t ∈ ts, ∀ u ∈ t.preorder, Regular text u

variable {text : List Char} {lo mid hi : Nat}

namespace Phrase

theorem nil (h : lo ≤ hi) : Phrase text lo [] hi :=
  ⟨h, ⟨by simp, .nil⟩, by simp⟩

/-- Trees, a node that is no text, and more trees. -/
private theorem append_cons {ts us : List (Tree Span)} {t : Tree Span} (hts : Phrase text lo ts mid)
    (hmid : t.note.start = mid)
    (hle : t.note.start ≤ t.note.stop) (hus : Phrase text t.note.stop us hi) (hinline : t.kind.isInline)
    (htext : t.kind ≠ .text) (hregular : ∀ u ∈ t.preorder, Regular text u) : Phrase text lo (ts ++ t :: us) hi := by
  subst hmid
  refine ⟨?_, ⟨?_, ?_⟩, ?_⟩
  · rw [List.map_append, List.map_cons]
    exact hts.between.append ⟨Nat.le_refl _, hle, hus.between⟩
  · simp only [List.map_append, List.map_cons, List.forall_mem_append, List.forall_mem_cons]
    exact ⟨hts.phrasing.inline, hinline, hus.phrasing.inline⟩
  · rw [List.map_append, List.map_cons]
    have hcons := hus.phrasing.apart.cons (x := t.content) fun _ _ => .inl htext
    refine hts.phrasing.apart.append hcons fun x _ y hy => .inr ?_
    cases hy
    exact htext
  · simp only [List.forall_mem_append, List.forall_mem_cons]
    exact ⟨hts.regular, hregular, hus.regular⟩

end Phrase

/-! ### Words -/

/-- Words that stand next to each other between two places, the last one first. -/
def Words (lo : Nat) : List (Span × List Char) → Nat → Prop
  | [], hi => lo = hi
  | (s, value) :: words, hi => s.start < s.stop ∧ s.stop = hi ∧ value ≠ [] ∧ Words lo words s.start

private theorem Words.getLast? {words : List (Span × List Char)} (h : Words lo words hi) {word : Span × List Char}
    (hlast : words.getLast? = some word) : word.1.start = lo ∧ lo < hi := by
  induction words generalizing hi with
  | nil => cases hlast
  | cons w words ih =>
    obtain ⟨hlt, rfl, -, hwords⟩ := h
    cases words with
    | nil =>
      cases hlast
      cases hwords
      exact ⟨rfl, hlt⟩
    | cons v words =>
      have := ih hwords (by simpa using hlast)
      exact ⟨this.1, this.2.trans hlt⟩

/-- Words make at most one text node. -/
private theorem phrase_textNode {words : List (Span × List Char)} (h : Words lo words hi) :
    Phrase text lo (textNode words) hi := by
  cases words with
  | nil =>
    cases h
    exact .nil (Nat.le_refl _)
  | cons w words =>
    obtain ⟨last, value⟩ := w
    obtain ⟨first, hfirst⟩ : ∃ first, ((last, value) :: words).getLast? = some first :=
      ⟨_, List.getLast?_eq_some_getLast (by simp)⟩
    obtain ⟨hstart, hlt⟩ := h.getLast? hfirst
    obtain ⟨-, rfl, hvalue, -⟩ := h
    have hne : String.ofList ((((last, value) :: words).reverse).flatMap (·.2)) ≠ "" := by
      simp [hvalue]
    simp only [textNode, hfirst, Option.map_some, Option.getD_some, hstart]
    refine ⟨⟨Nat.le_refl _, Nat.le_of_lt hlt, Nat.le_refl _⟩, ⟨?_, .singleton _⟩, ?_⟩
    · simp [Tree.content, Content.kind, Kind.isInline]
    · simp only [List.mem_singleton, forall_eq]
      exact regular_leaf (Nat.le_of_lt hlt) ⟨rfl, hne⟩ (by simp [Content.kind])

private theorem kind_of_mem_textNode {words : List (Span × List Char)} {t : Tree Span} (ht : t ∈ textNode words) :
    ∀ u ∈ t.preorder, u.kind = .text := by
  cases words with
  | nil => cases ht
  | cons w words =>
    rw [List.mem_singleton.1 ht]
    simp [Tree.preorder, Tree.preorderList, Tree.kind, Tree.content, Content.kind]

/-! ### Pieces -/

private theorem forall_mem_merge {P : Tree Span → Prop} (htext : ∀ words, ∀ t ∈ textNode words, P t)
    {ps : List Piece} (hparts : ∀ p ∈ ps, ∀ t, part p = .tree t → P t) (words : List (Span × List Char)) :
    ∀ t ∈ merge words (parts ps), P t := by
  induction ps generalizing words with
  | nil => exact htext words
  | cons p ps ih =>
    have hps := fun q hq => hparts q (.tail p hq)
    unfold parts
    cases hp : part p with
    | word span value => exact ih hps _
    | tree t =>
      simp only [merge, List.forall_mem_append, List.forall_mem_cons]
      exact ⟨htext words, hparts p (.head _) t hp, ih hps []⟩

private theorem merge_ne_nil {ps : List Piece} {words : List (Span × List Char)} (h : words ≠ []) :
    merge words (parts ps) ≠ [] := by
  induction ps generalizing words with
  | nil =>
    cases words with
    | nil => exact absurd rfl h
    | cons w words => simp [parts, merge, textNode]
  | cons p ps ih =>
    unfold parts
    cases part p with
    | word span value => exact ih (by simp)
    | tree t => simp [merge]

private theorem trees_ne_nil {ps : List Piece} (h : ps ≠ []) : trees ps ≠ [] := by
  cases ps with
  | nil => exact absurd rfl h
  | cons p ps =>
    unfold trees parts
    cases part p with
    | word span value => exact merge_ne_nil (by simp)
    | tree t => simp [merge]

mutual

/-- A piece without links that are written with brackets makes a tree without them. -/
private theorem unbracketed_part : ∀ {p : Piece}, Unbracketed text p → ∀ t, part p = .tree t →
    ∀ u ∈ t.preorder, u.kind = .link → text[u.note.start]? ≠ some '['
  | .text .., _, _, ht => by cases ht
  | .run _, _, _, ht => by cases ht
  | .opener .., _, _, ht => by cases ht
  | .node start stop content children, h, t, ht => by
    cases ht
    simp only [Unbracketed] at h
    rw [Tree.forall_mem_preorder]
    exact ⟨h.1, unbracketed_merge h.2 []⟩

private theorem unbracketed_merge {ps : List Piece} (h : UnbracketedList text ps) (words : List (Span × List Char)) :
    ∀ t ∈ merge words (parts ps), ∀ u ∈ t.preorder, u.kind = .link → text[u.note.start]? ≠ some '[' := by
  refine forall_mem_merge (fun words t ht u hu hlink => ?_) (unbracketed_parts h) words
  rw [kind_of_mem_textNode ht u hu] at hlink
  cases hlink

private theorem unbracketed_parts : ∀ {ps : List Piece}, UnbracketedList text ps → ∀ p ∈ ps, ∀ t, part p = .tree t →
    ∀ u ∈ t.preorder, u.kind = .link → text[u.note.start]? ≠ some '['
  | [], _, _, hp => by cases hp
  | q :: ps, h, p, hp => by
    simp only [UnbracketedList] at h
    rcases hp with _ | ⟨_, hp⟩
    · exact unbracketed_part h.1
    · exact unbracketed_parts h.2 p hp

end

private theorem isInline_of_marks {start first last stop : Nat} {children : List Piece} {content : Content}
    (h : Marks text start first last stop children content) : content.kind.isInline = true ∧ content.kind ≠ .text := by
  cases content <;> first | exact h.elim | simp [Content.kind, Kind.isInline]

/-- What a node says agrees with what its children say. -/
private theorem admits_of_marks {start first last stop : Nat} {children : List Piece} {content : Content}
    (hmarks : Marks text start first last stop children content) (hts : Phrase text first (trees children) last) :
    content.Admits ((trees children).map Tree.content) := by
  have hne (h : children ≠ []) : (trees children).map Tree.content ≠ [] := by
    simpa using trees_ne_nil h
  have hnil (h : children = []) : trees children = [] := by
    rw [h]
    rfl
  cases content with
  | emphasis => exact ⟨hts.phrasing, hne hmarks.2.2⟩
  | strong => exact ⟨hts.phrasing, hne hmarks.2.2⟩
  | link _ _ => exact hts.phrasing
  | inlineCode _ => exact ⟨by simp [hnil hmarks.1], hmarks.2⟩
  | image _ _ _ => simp [Content.Admits, hnil hmarks]
  | lineBreak => simp [Content.Admits, hnil hmarks]
  | _ => exact hmarks.elim

private theorem linked_of_marks {start first last stop : Nat} {children : List Piece} {content : Content}
    (hlt : start < stop) (hmarks : Marks text start first last stop children content)
    (hregular : ∀ t ∈ trees children, ∀ u ∈ t.preorder, Regular text u) :
    Linked text (.node ⟨start, stop⟩ content (trees children)) := by
  intro hlink
  refine ⟨hlt, ?_⟩
  cases content <;> try cases hlink
  rcases hmarks.2 with ⟨hopen, -, hbelow⟩ | ⟨hopen, -, -, address, rfl⟩
  · -- The nodes below are regular, so a link among them has brackets of one sort or the other, and not square ones.
    refine .inl ⟨hopen, Tree.forall_mem_preorderList.2 fun t ht u hu hulink => ?_⟩
    rcases ((hregular t ht u hu).linked hulink).2 with ⟨hbracket, -⟩ | ⟨hangle, -⟩
    · exact absurd hbracket (unbracketed_merge hbelow [] t ht u hu hulink)
    · exact hangle
  · refine .inr ⟨hopen, Tree.forall_mem_preorderList.2 fun t ht u hu hulink => ?_⟩
    have hword : t ∈ textNode [(⟨first, last⟩, address)] := ht
    rw [kind_of_mem_textNode hword u hu] at hulink
    cases hulink

mutual

/-- The node of a piece that reads the text is regular, and so are all nodes below it. -/
private theorem regular_part : ∀ {p : Piece}, Reads text p → ∀ t, part p = .tree t →
    t.note = ⟨p.start, p.stop⟩ ∧ t.kind.isInline ∧ t.kind ≠ .text ∧ ∀ u ∈ t.preorder, Regular text u
  | .text .., _, _, ht => by cases ht
  | .run _, _, _, ht => by cases ht
  | .opener .., _, _, ht => by cases ht
  | .node start stop content children, h, t, ht => by
    cases ht
    have hlt := h.lt
    simp only [Reads] at h
    obtain ⟨first, last, hfirst, hlast, hrow, hmarks⟩ := h
    -- The children are read from their first place on, with no words before them.
    have hwords : Words first [] first := rfl
    have hts := phrase_merge hwords hrow
    have hkind := isInline_of_marks hmarks
    refine ⟨rfl, hkind.1, hkind.2, Tree.forall_mem_preorder.2 ⟨⟨?_, ?_, ?_⟩, hts.regular⟩⟩
    · exact hts.between.mono (Nat.le_of_lt hfirst) (Nat.le_of_lt hlast)
    · exact admits_of_marks hmarks hts
    · exact linked_of_marks hlt hmarks hts.regular

/-- Words and the row of pieces after them make a phrase. -/
private theorem phrase_merge : ∀ {ps : List Piece} {words : List (Span × List Char)} {lo mid hi : Nat},
    Words lo words mid → Row text mid ps hi → Phrase text lo (merge words (parts ps)) hi
  | [], words, lo, mid, hi, hwords, hrow => by
    cases hrow
    exact phrase_textNode hwords
  | .text start stop value :: ps, words, lo, mid, hi, hwords, hrow => by
    simp only [Row, Reads] at hrow
    obtain ⟨rfl, hread, hps⟩ := hrow
    have hwords' : Words lo ((⟨start, stop⟩, value) :: words) stop := ⟨hread.1, rfl, hread.2, hwords⟩
    have hmerge := phrase_merge hwords' hps
    exact hmerge
  | .run r :: ps, words, lo, mid, hi, hwords, hrow => by
    simp only [Row] at hrow
    obtain ⟨rfl, hread, hps⟩ := hrow
    have hlt := hread.lt
    simp only [Reads] at hread
    have hwords' : Words lo ((⟨r.start, r.stop⟩, r.text) :: words) r.stop :=
      ⟨hlt, rfl, by simp [Run.text, Nat.ne_of_gt hread.1], hwords⟩
    have hmerge := phrase_merge hwords' hps
    exact hmerge
  | .opener start stop image active :: ps, words, lo, mid, hi, hwords, hrow => by
    simp only [Row] at hrow
    obtain ⟨rfl, hread, hps⟩ := hrow
    have hwords' : Words lo ((⟨start, stop⟩, bracket image) :: words) stop :=
      ⟨hread.lt, rfl, by cases image <;> simp [bracket], hwords⟩
    have hmerge := phrase_merge hwords' hps
    exact hmerge
  | .node start stop content children :: ps, words, lo, mid, hi, hwords, hrow => by
    simp only [Row] at hrow
    obtain ⟨rfl, hread, hps⟩ := hrow
    have hpart := regular_part hread _ rfl
    exact (phrase_textNode hwords).append_cons rfl (Nat.le_of_lt hread.lt) (phrase_merge rfl hps) hpart.2.1
      hpart.2.2.1 hpart.2.2.2

end

/-- The trees of a row of pieces. -/
theorem phrase_trees {ps : List Piece} (h : Row text lo ps hi) : Phrase text lo (trees ps) hi :=
  phrase_merge rfl h

/-! ### Inline content -/

/-- Inline content is read as a phrase. -/
theorem phrase_readInline (text : List Char) : Phrase text 0 (readInline text).trees text.length :=
  phrase_trees (row_resolve_readPieces text)

/-- Lines read as their content does, but for the places. -/
theorem erase_trees_readLines (ls : List Line) :
    (readLines ls).trees.map Tree.erase = (readInline (contentOf ls)).trees.map Tree.erase := by
  simp only [readLines, List.map_map, Function.comp_def, Tree.erase_map]

/-- The inline content that lines make is a phrase of their source. -/
theorem phrase_readLines {source : List Char} {ls : List Line} (h : Joined source lo ls hi) :
    Phrase source lo (readLines ls).trees hi := by
  have hread := phrase_readInline (contentOf ls)
  have hlt : ∀ i j, i < j → sourceOf ls i < sourceOf ls j := fun _ _ => sourceOf_lt h.ne_nil h.apart
  have hle : ∀ i j, i ≤ j → sourceOf ls i ≤ sourceOf ls j := fun _ _ => sourceOf_le_sourceOf h.ne_nil h.apart
  refine ⟨?_, ?_, ?_⟩
  · have := (hread.between.map hle).mono (h.le_sourceOf 0) (h.sourceOf_le (Nat.le_refl _))
    simpa only [readLines, List.map_map, Function.comp_def, Tree.note_map] using this
  · have := hread.phrasing
    simpa only [readLines, List.map_map, Function.comp_def, Tree.content_map] using this
  · simp only [readLines, List.forall_mem_map, Tree.preorder_map]
    exact fun t ht u hu => (hread.regular t ht u hu).map hlt fun _ _ => getElem?_sourceOf h.stands

theorem trees_readLines_eq_nil {ls : List Line} (h : contentOf ls = []) : (readLines ls).trees = [] := by
  simp [readLines, readInline, readPieces, h, readFrom, Emphasis.resolve, Emphasis.resolveFrom, trees, parts, merge,
    textNode]

/-- Content that is not empty has some trees. -/
theorem trees_readLines_ne_nil {ls : List Line} (h : contentOf ls ≠ []) : (readLines ls).trees ≠ [] := by
  have hrow := row_resolve_readPieces (contentOf ls)
  have hne : Emphasis.resolve (readPieces (contentOf ls)).1 ≠ [] := by
    intro hnil
    rw [hnil] at hrow
    exact h (List.length_eq_zero_iff.1 hrow.symm)
  simpa [readLines, readInline] using trees_ne_nil hne

end MarkdownTree.Scan
