import MarkdownTree.Proofs.InlineText
import MarkdownTree.Proofs.Rescan
import MarkdownTree.Proofs.Tidy

/-!
# Inline content that reads back

The printer checks what it has written for inline content by reading it again and comparing what must survive
(`isIntact`).  Rows that a reading can give survive as they are (`phrase_printed_row`), and different ones survive as
different drafts (`eq_of_sameList`).  So where the check passes, the written content is read as the same trees
(`erase_readInline_of_isIntact`): in a marked heading, where breaks are written as spaces, if the trees have none.
-/

namespace MarkdownTree.Print

open Text Draft Scan

/-- A row of inline trees that a reading can give: texts are not empty and do not stand side by side. -/
structure IsPhrase (ts : List (Tree Unit)) : Prop where
  phrasing : Content.Phrasing (ts.map Tree.content)
  admits : ∀ u ∈ Tree.preorderList ts, u.content.Admits (u.children.map Tree.content)

namespace IsPhrase

variable {note : Unit} {content : Content} {children ts : List (Tree Unit)}
  (h : IsPhrase (.node note content children :: ts))
include h

theorem inline : content.kind.isInline = true :=
  h.phrasing.inline _ (.head _)

theorem tail : IsPhrase ts where
  phrasing := ⟨fun c hc => h.phrasing.inline c (.tail _ hc), h.phrasing.apart.tail⟩
  admits := (Tree.forall_mem_preorderList_cons.1 h.admits).2.2

theorem node_admits : content.Admits (children.map Tree.content) :=
  (Tree.forall_mem_preorderList_cons.1 h.admits).1

theorem inner : IsPhrase children where
  phrasing := by
    have hadmits := h.node_admits
    have hinline := h.inline
    have hleaf (hnil : children.map Tree.content = []) : Content.Phrasing (children.map Tree.content) := by
      rw [hnil]
      exact ⟨fun _ hc => (by cases hc), .nil⟩
    cases content with
    | text => exact hleaf hadmits.1
    | emphasis => exact hadmits.1
    | strong => exact hadmits.1
    | inlineCode => exact hleaf hadmits.1
    | link => exact hadmits
    | image | lineBreak => exact hleaf hadmits
    | _ => cases hinline
  admits := (Tree.forall_mem_preorderList_cons.1 h.admits).2.1

theorem next (hkind : content.kind = .text) : ∀ t ∈ ts.head?, t.kind ≠ .text := by
  intro t ht
  cases ts with
  | nil => cases ht
  | cons u ts =>
    cases ht
    exact (List.isChain_cons_cons.1 h.phrasing.apart).1.resolve_left fun hne => hne hkind

end IsPhrase

/-- All nodes of a row are inline. -/
theorem IsPhrase.inline_preorderList : ∀ {ts : List (Tree Unit)}, IsPhrase ts → ∀ u ∈ Tree.preorderList ts,
    u.kind.isInline = true
  | [], _ => by simp [Tree.preorderList]
  | .node _ _ _ :: _, h =>
    Tree.forall_mem_preorderList_cons.2 ⟨h.inline, h.inner.inline_preorderList, h.tail.inline_preorderList⟩

/-! ### Drafts of rows -/

private theorem ofTrees_unplaced (ts : List (Tree Unit)) : Draft.ofTrees (unplaced ts) = ts.map printed := by
  rw [ofTrees_eq_map, unplaced, Tree.mapList_eq_map, List.map_map]
  rfl

theorem unplaced_erase {α : Type} (ts : List (Tree α)) :
    ts.map (·.map fun _ => (none : Option Position)) = unplaced (ts.map Tree.erase) := by
  rw [unplaced, Tree.mapList_eq_map, List.map_map]
  refine List.map_congr_left fun t _ => ?_
  exact (Tree.map_map (fun _ => ()) (fun _ => (none : Option Position)) t).symm

/-- All of a row that can be read must survive. -/
theorem phrase_printed_row : ∀ {ts : List (Tree Unit)}, IsPhrase ts → phrase false (ts.map printed) = ts.map printed
  | [], _ => rfl
  | .node note content children :: ts, h => by
    have hinner := phrase_printed_row h.inner
    have hrest := phrase_printed_row h.tail
    have hadmits := h.node_admits
    have hinline := h.inline
    rw [List.map_cons, phrase, hrest, printed_node]
    cases content with
    | text value =>
      obtain ⟨hnil, hne⟩ := hadmits
      obtain rfl := List.map_eq_nil_iff.1 hnil
      exact consText_of_ne hne (h.next rfl)
    | emphasis | strong | link =>
      show Draft.node _ _ none (phrase false (children.map printed)) none :: _ = _
      rw [hinner]
      rfl
    | inlineCode | image | lineBreak => rfl
    | _ => cases hinline

theorem breaksLine_node {α : Type} (note : α) (content : Content) (children : List (Tree α)) :
    (Tree.node note content children).breaksLine = ((match content with
      | .text value => value.toList.contains '\n'
      | .lineBreak => true
      | _ => false) || children.any Tree.breaksLine) := by
  rw [Tree.breaksLine, Tree.preorder, List.any_cons, Tree.any_preorderList]
  rfl

/-- In a marked heading as much must survive of a row without breaks as elsewhere. -/
private theorem phrase_marked : ∀ {ts : List (Tree Unit)}, IsPhrase ts → ts.any Tree.breaksLine = false →
    phrase true (ts.map printed) = phrase false (ts.map printed)
  | [], _, _ => rfl
  | .node note content children :: ts, h, hbreaks => by
    rw [List.any_cons, Bool.or_eq_false_iff, breaksLine_node, Bool.or_eq_false_iff] at hbreaks
    obtain ⟨⟨hown, hchildren⟩, hts⟩ := hbreaks
    have hinner := phrase_marked h.inner hchildren
    have hrest := phrase_marked h.tail hts
    have hinline := h.inline
    rw [List.map_cons, phrase, phrase, hrest, printed_node]
    cases content with
    | text value =>
      have hflat : flatten value.toList = value.toList := by
        have hnewline : '\n' ∉ value.toList := by simpa using hown
        refine (List.map_congr_left fun c hc => if_neg ?_).trans (List.map_id _)
        rintro rfl
        exact hnewline hc
      show consText (flatten value.toList) _ = consText value.toList _
      rw [hflat]
    | emphasis | strong | link =>
      show Draft.node _ _ none (phrase true (children.map printed)) none :: _ = _
      rw [hinner]
      rfl
    | lineBreak => cases hown
    | inlineCode | image => rfl
    | _ => cases hinline

private theorem same_text {v w : String} : (Value.text v).same (.text w) = true ↔ v = w := by
  simp [Value.same]

private theorem same_ofText? {v w : Option String} : (Value.ofText? v).same (.ofText? w) = true ↔ v = w := by
  cases v <;> cases w <;> simp [Value.ofText?, Value.same, Value.sameNumber, Value.size?]

/-- Inline nodes of one kind whose fields are the same say the same. -/
private theorem content_eq_of_values {c d : Content} (hd : d.kind.isInline = true) (hkind : c.kind = d.kind)
    (h : Value.sameList (values c.kind c.fields) (values d.kind d.fields) = true) : c = d := by
  cases d with
  | text v =>
    cases c <;> cases hkind
    rename_i w
    have h : ((Value.text w).same (.text v) && true) = true := h
    rw [Bool.and_true, same_text] at h
    rw [h]
  | inlineCode v =>
    cases c <;> cases hkind
    rename_i w
    have h : ((Value.text w).same (.text v) && true) = true := h
    rw [Bool.and_true, same_text] at h
    rw [h]
  | link destination title =>
    cases c <;> cases hkind
    rename_i destination' title'
    have h : ((Value.text destination').same (.text destination) &&
      ((Value.ofText? title').same (.ofText? title) && true)) = true := h
    rw [Bool.and_true, Bool.and_eq_true, same_text, same_ofText?] at h
    rw [h.1, h.2]
  | image destination alt title =>
    cases c <;> cases hkind
    rename_i destination' alt' title'
    have h : ((Value.text destination').same (.text destination) && ((Value.text alt').same (.text alt) &&
      ((Value.ofText? title').same (.ofText? title) && true))) = true := h
    rw [Bool.and_true, Bool.and_eq_true, Bool.and_eq_true, same_text, same_text, same_ofText?] at h
    rw [h.1, h.2.1, h.2.2]
  | emphasis | strong | lineBreak => cases c <;> first | rfl | cases hkind
  | _ => cases hd

/-- Rows of inline trees that survive as the same drafts are the same. -/
theorem eq_of_sameList : ∀ {us ts : List (Tree Unit)}, IsPhrase ts →
    sameList (us.map printed) (ts.map printed) = true → us = ts
  | [], [], _, _ => rfl
  | [], _ :: _, _, h => by cases h
  | _ :: _, [], _, h => by cases h
  | .node _ c us :: us', .node _ d ts :: ts', hts, h => by
    rw [List.map_cons, List.map_cons, sameList, printed_node, printed_node, same, Bool.and_eq_true, Bool.and_eq_true,
      Bool.and_eq_true, beq_iff_eq] at h
    obtain ⟨⟨⟨hkind, hvalues⟩, hbelow⟩, hrest⟩ := h
    obtain rfl := content_eq_of_values hts.inline hkind hvalues
    obtain rfl := eq_of_sameList hts.inner hbelow
    obtain rfl := eq_of_sameList hts.tail hrest
    rfl

/-! ### Reading -/

section

open Piece

variable {text : List Char} (htext : '\n' ∉ text)
include htext

omit htext in
/-- Words without line feeds make texts without them. -/
private theorem breaksLine_textNode {words : List (Span × List Char)} (hwords : ∀ w ∈ words, '\n' ∉ w.2) :
    ∀ t ∈ textNode words, t.breaksLine = false := by
  intro t ht
  cases words with
  | nil => cases ht
  | cons w words =>
    have hvalue : '\n' ∉ (w :: words).reverse.flatMap (·.2) := by
      rw [List.mem_flatMap]
      rintro ⟨word, hword, hmem⟩
      exact hwords word (List.mem_reverse.1 hword) hmem
    rw [List.mem_singleton.1 ht, breaksLine_node]
    dsimp only
    rw [String.toList_ofList]
    simpa using hvalue

mutual

private theorem breaksLine_part : ∀ {p : Piece}, Reads text p → Piece.Anchored text p → ∀ t, part p = .tree t →
    t.breaksLine = false
  | .text .., _, _, _, ht => by cases ht
  | .run _, _, _, _, ht => by cases ht
  | .opener .., _, _, _, ht => by cases ht
  | .node start stop content children, hreads, hanchored, t, ht => by
    cases ht
    obtain ⟨-, hbreak, -, hchildren⟩ := hanchored
    simp only [Reads] at hreads
    obtain ⟨first, last, -, -, hrow, hmarks⟩ := hreads
    have hinner := breaksLine_merge (List.forall_mem_nil fun w : Span × List Char => '\n' ∉ w.2) hrow hchildren
    rw [breaksLine_node, List.any_eq_false.2 fun t ht => by rw [hinner t ht]; decide, Bool.or_false]
    cases content with
    | text => exact hmarks.elim
    | lineBreak =>
      obtain ⟨j, -, hj⟩ := hbreak rfl
      exact absurd (List.mem_of_getElem? hj) htext
    | _ => rfl

private theorem breaksLine_merge : ∀ {ps : List Piece} {words : List (Span × List Char)} {mid hi : Nat},
    (∀ w ∈ words, '\n' ∉ w.2) → Row text mid ps hi → AnchoredList text ps →
      ∀ t ∈ merge words (parts ps), t.breaksLine = false
  | [], words, _, _, hwords, _, _ => breaksLine_textNode hwords
  | p :: ps, words, mid, hi, hwords, hrow, hanchored => by
    obtain ⟨-, hread, hps⟩ := hrow
    obtain ⟨hp, hrest⟩ := hanchored
    have hword {span : Span} {value : List Char} (hvalue : '\n' ∉ value) :
        ∀ t ∈ merge ((span, value) :: words) (parts ps), t.breaksLine = false :=
      breaksLine_merge (List.forall_mem_cons.2 ⟨hvalue, hwords⟩) hps hrest
    cases p with
    | text start stop value =>
      refine hword fun hmem => ?_
      obtain ⟨rfl, -⟩ := hp.newline hmem
      obtain ⟨j, -, hj⟩ := hp.last '\n' rfl
      exact htext (List.mem_of_getElem? hj)
    | run r =>
      refine hword fun hmem => ?_
      have hmark : r.Anchored text := hp
      have hblank := hmark.mark
      rw [← List.eq_of_mem_replicate hmem] at hblank
      cases hblank
    | opener start stop image active => exact hword (by cases image <;> decide)
    | node start stop content children =>
      have hnode := breaksLine_part hread hp _ rfl
      have hafter := breaksLine_merge (List.forall_mem_nil fun w : Span × List Char => '\n' ∉ w.2) hps hrest
      exact List.forall_mem_append.2 ⟨breaksLine_textNode hwords, List.forall_mem_cons.2 ⟨hnode, hafter⟩⟩

end

/-- Inline content without line feeds is read without breaks. -/
theorem breaksLine_readInline : ∀ t ∈ (readInline text).trees, t.breaksLine = false :=
  breaksLine_merge htext (by simp) (row_resolve_readPieces text)
    (anchoredList_iff.2 (anchored_resolve_readPieces text))

end

theorem isPhrase_readInline (text : List Char) : IsPhrase ((readInline text).trees.map Tree.erase) := by
  obtain ⟨-, hphrasing, hregular⟩ := phrase_readInline text
  constructor
  · rwa [List.map_map, show Tree.content ∘ Tree.erase = Tree.content (α := Span) from funext (Tree.content_map _)]
  · rw [Tree.forall_mem_preorderList, List.forall_mem_map]
    intro t ht
    rw [Tree.erase, Tree.preorder_map, List.forall_mem_map]
    intro u hu
    have hadmits := (hregular t ht u hu).admits
    rwa [Tree.content_map, Tree.children_map, List.map_map,
      show Tree.content ∘ Tree.map _ = Tree.content (α := Span) from funext (Tree.content_map _)]

/-- Where the check of what is written for a row passes, it is read as the row. -/
theorem erase_readInline_of_isIntact {atx : Bool} {ts : List (Tree Unit)} (hts : IsPhrase ts)
    (hbreaks : atx = true → ts.any Tree.breaksLine = false) {x : List Char} (hx : atx = true → '\n' ∉ x)
    (h : isIntact atx (phrase atx (Draft.ofTrees (unplaced ts))) x = true) :
    (readInline (join ['\n'] (contentLines atx x))).trees.map Tree.erase = ts := by
  let us := (readInline (join ['\n'] (contentLines atx x))).trees.map Tree.erase
  have hus : IsPhrase us := isPhrase_readInline _
  have hsurvives {ts : List (Tree Unit)} (hts : IsPhrase ts) (hbreaks : atx = true → ts.any Tree.breaksLine = false) :
      phrase atx (ts.map printed) = ts.map printed := by
    cases atx with
    | false => exact phrase_printed_row hts
    | true => rw [phrase_marked hts (hbreaks rfl), phrase_printed_row hts]
  have hread : atx = true → us.any Tree.breaksLine = false := by
    rintro rfl
    have hline : '\n' ∉ join ['\n'] (contentLines true x) := fun hmem => hx rfl ((infix_trim x).subset hmem)
    rw [List.any_map, List.any_eq_false]
    intro t ht
    rw [Function.comp_apply, Tree.erase, Tree.breaksLine_map, breaksLine_readInline hline t ht]
    decide
  rw [isIntact, rescan, unplaced_erase, ofTrees_unplaced, ofTrees_unplaced, hsurvives hus hread, hsurvives hts hbreaks]
    at h
  exact eq_of_sameList hts h

end MarkdownTree.Print
