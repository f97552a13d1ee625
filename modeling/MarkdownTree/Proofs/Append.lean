import MarkdownTree.Proofs.Container
import MarkdownTree.Proofs.Taken

/-!
# Texts one after the other

Behind a blank line the reading of a row of lines starts anew, unless the last block before it is of a kind that may go
on there (`segments_append`, `readBlocks_append`).  So a text with a blank line and another text behind it reads as the
blocks of the first and those of the second, when the first ends with such a block (`scan_append`).
-/

namespace MarkdownTree

namespace Text

/-- The parts of a text are those before a separator in it and those after. -/
theorem fields_append_fields (cs rest : List Char) :
    fields '\n' (cs ++ '\n' :: rest) = fields '\n' cs ++ fields '\n' rest := by
  induction cs with
  | nil => simp only [List.nil_append, fields, if_true, List.cons_append]
  | cons c cs ih =>
    obtain ⟨part, parts, hcons⟩ := List.exists_cons_of_ne_nil (fields_ne_nil '\n' cs)
    rw [List.cons_append, fields, fields, ih, hcons]
    split <;> rfl

end Text

namespace Scan

open Text

variable {b : Line} {ls : List Line}

/-! ### Rows -/

namespace Setting

variable (s : Setting) (limit : Value)

private theorem exists_not_blank {gap : Bool} (h : s.segments limit gap ls ≠ []) : ∃ x ∈ ls, x.isBlank = false := by
  fun_induction s.segments limit gap ls with
  | case1 => exact absurd rfl h
  | case2 gap l ls hl ih =>
    obtain ⟨x, hx, hb⟩ := ih h
    exact ⟨x, .tail _ hx, hb⟩
  | case3 gap l ls hl => exact ⟨l, .head _, Bool.not_eq_true _ ▸ hl⟩

/-- Behind a blank line the cutting starts anew, unless the last chunk before it is of a kind that may go on there. -/
theorem segments_append (gap : Bool) (hb : b.isBlank = true) (ls ms : List Line)
    (hlast : ∀ seg ∈ (s.segments limit gap ls).getLast?, seg.chunk.kind.endsAtBlank = true) :
    s.segments limit gap (ls ++ b :: ms) = s.segments limit gap ls ++ s.segments limit true ms := by
  fun_induction s.segments limit gap ls with
  | case1 gap =>
    rw [List.nil_append, segments, if_pos hb]
    rfl
  | case2 gap l ls hl ih => rw [List.cons_append, segments, if_pos hl, ih hlast]
  | case3 gap l ls hl chunk taken hchunk ih =>
    have hle := s.taken_le limit l ls
    have hsame := s.chunk_append limit hb l ls ms
    rw [hchunk] at hle hsame
    -- A chunk that is not the last one leaves the line with which the next one starts.
    have hends : chunk.kind.endsAtBlank = true ∨ ∃ x ∈ ls.drop taken, x.isBlank = false := by
      cases hrest : s.segments limit false (ls.drop taken) with
      | nil => exact .inl (hlast ⟨gap, chunk⟩ (by rw [hrest]; rfl))
      | cons seg segs => exact .inr (s.exists_not_blank limit (by rw [hrest]; exact List.cons_ne_nil _ _))
    rw [List.cons_append, segments, if_neg hl, hsame hends]
    dsimp only
    rw [List.drop_append_of_le_length hle, List.cons_append, ih]
    intro seg hseg
    exact hlast seg (by rw [List.getLast?_cons, hseg]; rfl)

/-- A blank line in front makes a difference to the first chunk's place only. -/
private theorem chunk_segments (gap gap' : Bool) (ls : List Line) :
    (s.segments limit gap ls).map Segment.chunk = (s.segments limit gap' ls).map Segment.chunk := by
  cases ls with
  | nil => simp only [segments]
  | cons l ls =>
    rw [segments, segments]
    split <;> rfl

end Setting

/-! ### Blocks -/

/-- Behind a blank line the reading starts anew, unless the last block before it is of a kind that may go on there. -/
theorem readBlocks_append (o : ScanOptions) (room : Nat) (inItem : Bool) (hb : b.isBlank = true) (ls ms : List Line)
    (hlast : ∀ t ∈ (readBlocks o room inItem ls).trees.getLast?, t.kind.endsAtBlank = true) :
    (readBlocks o room inItem (ls ++ b :: ms)).trees =
        (readBlocks o room inItem ls).trees ++ (readBlocks o room inItem ms).trees ∧
      (readBlocks o room inItem (ls ++ b :: ms)).notes =
        (readBlocks o room inItem ls).notes ++ (readBlocks o room inItem ms).notes := by
  obtain ⟨inner, s, hread⟩ := readBlocks_eq_assemble o room inItem
  simp only [hread] at hlast ⊢
  have hsegments := s.segments_append o.nestingLimit false hb ls ms fun seg hseg => by
    refine kind_chunkTree inner seg.chunk ▸ hlast _ ?_
    rw [trees_assemble, List.getLast?_map, List.getLast?_map, hseg]
    rfl
  have hchunks := congrArg (List.map Segment.chunk) hsegments
  rw [List.map_append, s.chunk_segments o.nestingLimit true false ms] at hchunks
  simp only [trees_assemble, notes_assemble, hchunks, List.map_append, List.flatMap_append, and_self]

/-- Blank lines at the start of a row are not read as anything. -/
private theorem readBlocks_blank (o : ScanOptions) (room : Nat) (inItem : Bool) (hb : b.isBlank = true)
    (ls : List Line) :
    (readBlocks o room inItem (b :: ls)).trees = (readBlocks o room inItem ls).trees ∧
      (readBlocks o room inItem (b :: ls)).notes = (readBlocks o room inItem ls).notes := by
  obtain ⟨inner, s, hread⟩ := readBlocks_eq_assemble o room inItem
  have hchunks := s.chunk_segments o.nestingLimit true false ls
  simp only [hread, Setting.segments, hb, if_true, trees_assemble, notes_assemble, hchunks, and_self]

/-! ### Texts -/

private theorem text_linesOf (cs : List Char) :
    (linesOf cs).map Line.text =
      (if (fields '\n' cs).getLast? = some [] then (fields '\n' cs).dropLast else fields '\n' cs).map dropReturn := by
  rw [linesOf, text_numberLines]

/-- The parts of a text are its lines, but for a last one of nothing. -/
private theorem fields_eq_text (cs : List Char) :
    (fields '\n' cs).map dropReturn = (linesOf cs).map Line.text ∨
      (fields '\n' cs).map dropReturn = (linesOf cs).map Line.text ++ [[]] := by
  rw [text_linesOf]
  split
  · rename_i hlast
    obtain ⟨init, hinit⟩ := List.getLast?_eq_some_iff.1 hlast
    rw [hinit, List.dropLast_concat, List.map_append]
    exact .inr rfl
  · exact .inl rfl

private theorem text_linesOf_append (cs ds : List Char) :
    (linesOf (cs ++ '\n' :: '\n' :: ds)).map Line.text =
      (fields '\n' cs).map dropReturn ++ [] :: (linesOf ds).map Line.text := by
  obtain ⟨part, parts, hcons⟩ := List.exists_cons_of_ne_nil (fields_ne_nil '\n' ds)
  have hfields : fields '\n' (cs ++ '\n' :: '\n' :: ds) = (fields '\n' cs ++ [[]]) ++ part :: parts := by
    rw [fields_append_fields, fields, if_pos rfl, hcons, List.append_assoc]
    rfl
  rw [text_linesOf, text_linesOf, hfields, hcons, List.getLast?_append_of_ne_nil _ (List.cons_ne_nil _ _)]
  split <;> simp [List.dropLast_append_of_ne_nil, dropReturn]

/-- The lines of two texts with a blank line between are those of the first, some blank ones and those of the second. -/
private theorem exists_rows (cs ds : List Char) : ∃ b : Line, b.isBlank = true ∧
    ((linesOf (cs ++ '\n' :: '\n' :: ds)).map Line.text = (linesOf cs ++ b :: linesOf ds).map Line.text ∨
      (linesOf (cs ++ '\n' :: '\n' :: ds)).map Line.text = (linesOf cs ++ b :: b :: linesOf ds).map Line.text) := by
  refine ⟨⟨[], 0⟩, rfl, ?_⟩
  rw [text_linesOf_append]
  rcases fields_eq_text cs with h | h <;> rw [h]
  · exact .inl (by rw [List.map_append, List.map_cons])
  · refine .inr ?_
    rw [List.map_append, List.map_cons, List.map_cons, List.append_assoc]
    rfl

private theorem readBlocks_text_append (o : ScanOptions) (room : Nat) (inItem : Bool) (cs ds : List Char)
    (hlast : ∀ t ∈ (readBlocks o room inItem (linesOf cs)).trees.getLast?, t.kind.endsAtBlank = true) :
    (readBlocks o room inItem (linesOf (cs ++ '\n' :: '\n' :: ds))).trees.map Tree.erase =
        (readBlocks o room inItem (linesOf cs)).trees.map Tree.erase ++
          (readBlocks o room inItem (linesOf ds)).trees.map Tree.erase ∧
      (readBlocks o room inItem (linesOf (cs ++ '\n' :: '\n' :: ds))).notes.map Note.anomaly =
        (readBlocks o room inItem (linesOf cs)).notes.map Note.anomaly ++
          (readBlocks o room inItem (linesOf ds)).notes.map Note.anomaly := by
  have hread {ls : List Line} (h : (linesOf (cs ++ '\n' :: '\n' :: ds)).map Line.text = ls.map Line.text) :=
    alike_readBlocks (f := id) (o := o) rfl rfl room inItem _ _ (Line.forall₂_alike_iff.2 h)
  obtain ⟨b, hb, h | h⟩ := exists_rows cs ds
  · obtain ⟨htrees, hnotes⟩ := readBlocks_append o room inItem hb (linesOf cs) (linesOf ds) hlast
    rw [(hread h).trees, ← List.map_append, ← htrees, ← List.map_append, ← hnotes]
    exact ⟨rfl, (hread h).notes⟩
  · obtain ⟨htrees, hnotes⟩ := readBlocks_append o room inItem hb (linesOf cs) (b :: linesOf ds) hlast
    rw [(readBlocks_blank o room inItem hb _).1] at htrees
    rw [(readBlocks_blank o room inItem hb _).2] at hnotes
    rw [(hread h).trees, ← List.map_append, ← htrees, ← List.map_append, ← hnotes]
    exact ⟨rfl, (hread h).notes⟩

/-- What a scan warns of: the messages and the rules, wherever in the text. -/
def Scanned.said (x : Scanned) : List (String × Option String) :=
  x.warnings.map fun d => (d.text, d.rule)

private theorem said_scan (o : ScanOptions) (path : Option String) (text : String) {lines : List Line}
    (h : splitDocument o.frontMatter text.toList = ([], lines)) :
    (scan o path text).said =
      (readBlocks o o.maxNesting false lines).notes.map fun n => (n.anomaly.message, some n.anomaly.rule) := by
  simp only [Scanned.said, scan, readDocument_eq, h, List.map_map, Function.comp_def, Note.diagnostic]

/-- With a blank line between, two texts read as the blocks of the one followed by those of the other, with the warnings
about the one followed by those about the other, if the first ends with a heading, a paragraph, a thematic break or a
quote.  This is so however the second begins. -/
theorem scan_append {o : ScanOptions} (ho : o.frontMatter = false) (p q r : Option String) (a b : String)
    {s last : Tree Position} (hs : (scan o p a).tree = some s) (hlast : s.children.getLast? = some last)
    (hkind : last.kind.endsAtBlank = true) :
    ∃ t u, (scan o q b).tree = some t ∧ (scan o r (a ++ "\n\n" ++ b)).tree = some u ∧
      u.children.map Tree.erase = s.children.map Tree.erase ++ t.children.map Tree.erase ∧
      (scan o r (a ++ "\n\n" ++ b)).said = (scan o p a).said ++ (scan o q b).said := by
  have hsplit (text : String) : splitDocument o.frontMatter text.toList = ([], linesOf text.toList) := by
    rw [ho]
    rfl
  obtain ⟨_, hs', hserase⟩ := exists_scan o p a (hsplit a)
  cases hs.symm.trans hs'
  obtain ⟨t, ht, hterase⟩ := exists_scan o q b (hsplit b)
  obtain ⟨u, hu, huerase⟩ := exists_scan o r (a ++ "\n\n" ++ b) (hsplit _)
  refine ⟨t, u, ht, hu, ?_⟩
  have htext : (a ++ "\n\n" ++ b).toList = a.toList ++ '\n' :: '\n' :: b.toList := by
    rw [String.toList_append, String.toList_append, List.append_assoc]
    rfl
  have hends : ∀ x ∈ (readBlocks o o.maxNesting false (linesOf a.toList)).trees.getLast?,
      x.kind.endsAtBlank = true := by
    intro x hx
    have herase := congrArg List.getLast? (Tree.map_erase_children hserase)
    rw [List.getLast?_map, List.getLast?_map, hlast, hx] at herase
    have hsame : last.kind = x.kind := by
      rw [← Tree.kind_map (fun _ => ()) last, ← Tree.kind_map (fun _ => ()) x]
      exact congrArg Tree.kind (Option.some.inj herase)
    rw [← hsame]
    exact hkind
  obtain ⟨htrees, hnotes⟩ := readBlocks_text_append o o.maxNesting false a.toList b.toList hends
  constructor
  · rw [Tree.map_erase_children huerase, Tree.map_erase_children hserase, Tree.map_erase_children hterase, htext, htrees]
  · have hsaid := congrArg (List.map fun n : Anomaly => (n.message, some n.rule)) hnotes
    simp only [List.map_append, List.map_map, Function.comp_def] at hsaid
    rw [said_scan o r _ (hsplit _), said_scan o p a (hsplit a), said_scan o q b (hsplit b), htext, hsaid]

/-- A quote, behind which a code block comes that goes over a blank line. -/
theorem scan_append_quote :
    ∃ s last, (scan { frontMatter := false } none "# a\n> b").tree = some s ∧
      s.children.getLast? = some last ∧ last.kind.endsAtBlank = true ∧
      ∃ t u, (scan { frontMatter := false } none "    c\n\n    d").tree = some t ∧
        (scan { frontMatter := false } none "# a\n> b\n\n    c\n\n    d").tree = some u ∧
        u.children.map Tree.erase = s.children.map Tree.erase ++ t.children.map Tree.erase ∧
        (scan { frontMatter := false } none "# a\n> b\n\n    c\n\n    d").said =
          (scan { frontMatter := false } none "# a\n> b").said ++
            (scan { frontMatter := false } none "    c\n\n    d").said := by
  have hs := tree_scan { frontMatter := false } none "# a\n> b"
  have hany : (((readDocument { frontMatter := false } "# a\n> b".toList).tree.map
      (Locator.ofText "# a\n> b".toList).positionOf).children.getLast?.any fun t => t.kind.endsAtBlank) = true := by
    decide +kernel
  obtain ⟨last, hlast, hkind⟩ := (Option.any_eq_true _ _).1 hany
  have htext : "# a\n> b" ++ "\n\n" ++ "    c\n\n    d" = "# a\n> b\n\n    c\n\n    d" := by decide +kernel
  have happend := scan_append rfl none none none "# a\n> b" "    c\n\n    d" hs hlast hkind
  rw [htext] at happend
  exact ⟨_, last, hs, hlast, hkind, happend⟩

end Scan

end MarkdownTree
