import Mathlib.Data.Prod.Lex
import MarkdownTree.Proofs.LineTexts

/-!
# Points and offsets

The lines of a text are its parts between line feeds, and each starts where those before it end, each with its line feed
(`lineStart`). Every offset of a text is so many characters from the start of one line (`exists_at`), of as many at most
as the line has: there stands a character of the line, its line feed, or the end of the text. So offsets and pairs of a
line and a column are the same thing (`Locator.At`), and a locator leads from each of them to the other
(`Locator.At.pointAt_eq`, `Locator.At.offset_eq_ok`) and keeps their order (`Locator.offset_inverts_point`).
-/

namespace MarkdownTree

open Text Scan

/-! ### Where lines start -/

/-- How much of a text lines take up, each with the line feed behind it. -/
def extent : List (List Char) → Nat
  | [] => 0
  | part :: parts => part.length + 1 + extent parts

/-- The offset at which a line of a text starts; the first line has the number zero. -/
def lineStart (text : List Char) (line : Nat) : Nat :=
  extent ((fields '\n' text).take line)

@[simp] theorem extent_nil : extent [] = 0 :=
  rfl

@[simp] theorem extent_cons (part : List Char) (parts : List (List Char)) :
    extent (part :: parts) = part.length + 1 + extent parts :=
  rfl

private theorem extent_append (before after : List (List Char)) :
    extent (before ++ after) = extent before + extent after := by
  induction before with
  | nil => rw [List.nil_append, extent_nil, Nat.zero_add]
  | cons part before ih => simp only [List.cons_append, extent_cons, ih, Nat.add_assoc]

private theorem lineStart_mono (text : List Char) {line line' : Nat} (h : line ≤ line') :
    lineStart text line ≤ lineStart text line' := by
  obtain ⟨more, rfl⟩ := Nat.exists_eq_add_of_le h
  rw [lineStart, lineStart, List.take_add, extent_append]
  exact Nat.le_add_right _ _

private theorem lineStart_succ {text part : List Char} {line : Nat} (h : (fields '\n' text)[line]? = some part) :
    lineStart text (line + 1) = lineStart text line + part.length + 1 := by
  rw [lineStart, List.take_add_one, h, extent_append]
  rfl

private theorem length_flatMap_newline (parts : List (List Char)) :
    (parts.flatMap (· ++ ['\n'])).length = extent parts := by
  induction parts with
  | nil => rfl
  | cons part parts ih =>
    rw [List.flatMap_cons, List.length_append, List.length_append, List.length_singleton, ih, extent_cons]

private theorem count_flatMap_newline {parts : List (List Char)} (h : ∀ part ∈ parts, '\n' ∉ part) :
    (parts.flatMap (· ++ ['\n'])).count '\n' = parts.length := by
  induction parts with
  | nil => rfl
  | cons part parts ih =>
    obtain ⟨hpart, hparts⟩ := List.forall_mem_cons.1 h
    rw [List.flatMap_cons, List.count_append, List.count_append, List.count_eq_zero_of_not_mem hpart, ih hparts,
      List.count_singleton_self, List.length_cons]
    omega

/-- A text is what stands before one of its parts, that part, and what comes behind it. -/
private theorem exists_join_eq (before : List (List Char)) (part : List Char) (after : List (List Char)) :
    ∃ rest, join ['\n'] (before ++ part :: after) = before.flatMap (· ++ ['\n']) ++ (part ++ rest) := by
  induction before with
  | nil =>
    cases after with
    | nil => exact ⟨[], by simp [join]⟩
    | cons next after => exact ⟨'\n' :: join ['\n'] (next :: after), by simp [join_cons_cons]⟩
  | cons first before ih =>
    obtain ⟨rest, hrest⟩ := ih
    refine ⟨rest, ?_⟩
    obtain ⟨next, more, hmore⟩ : ∃ next more, before ++ part :: after = next :: more :=
      List.exists_cons_of_ne_nil (by simp)
    rw [List.cons_append, hmore, join_cons_cons, ← hmore, hrest, List.flatMap_cons]
    simp

namespace Locator

private theorem length_numberLines (start : Nat) (parts : List (List Char)) :
    (numberLines start parts).length = parts.length := by
  induction parts generalizing start with
  | nil => rfl
  | cons part parts ih => rw [numberLines, List.length_cons, List.length_cons, ih]

private theorem cons_breaksFrom (offset : Nat) (text : List Char) :
    offset :: breaksFrom offset text = (numberLines offset (fields '\n' text)).map Line.offset := by
  induction text generalizing offset with
  | nil => rfl
  | cons c cs ih =>
    have hrest := ih (offset + 1)
    by_cases hc : c = '\n'
    · rw [breaksFrom, if_pos hc, fields, if_pos hc, numberLines, List.map_cons]
      exact congrArg (offset :: ·) hrest
    · obtain ⟨part, parts, hparts⟩ := List.exists_cons_of_ne_nil (fields_ne_nil '\n' cs)
      rw [hparts, numberLines, List.map_cons, List.cons.injEq] at hrest
      have hnext : offset + (c :: part).length + 1 = offset + 1 + part.length + 1 := by
        rw [List.length_cons]
        omega
      rw [breaksFrom, if_neg hc, hrest.2, fields, if_neg hc, hparts]
      dsimp only
      rw [numberLines, List.map_cons, hnext]

private theorem getElem?_numberLines (start : Nat) (before : List (List Char)) (part : List Char)
    (after : List (List Char)) :
    ((numberLines start (before ++ part :: after)).map Line.offset)[before.length]? = some (start + extent before) := by
  induction before generalizing start with
  | nil => rfl
  | cons first before ih =>
    rw [List.cons_append, numberLines, List.map_cons, List.length_cons, List.getElem?_cons_succ, ih, extent_cons]
    congr 1
    omega

/-- The search stops at the last line that starts no later than the offset. -/
private theorem lineFrom_numberLines (line start : Nat) (before : List (List Char)) {part : List Char}
    (after : List (List Char)) {column : Nat} (h : column ≤ part.length) :
    lineFrom line start (start + extent before + column)
        ((numberLines start (before ++ part :: after)).map Line.offset).tail =
      (line + before.length, start + extent before) := by
  induction before generalizing line start with
  | nil =>
    cases after with
    | nil => rfl
    | cons next after =>
      simp only [List.nil_append, numberLines, List.map_cons, List.tail_cons, lineFrom, extent_nil]
      rw [if_neg (by omega)]
      rfl
  | cons first before ih =>
    obtain ⟨next, more, hmore⟩ : ∃ next more, before ++ part :: after = next :: more :=
      List.exists_cons_of_ne_nil (by simp)
    have hrest := ih (line + 1) (start + first.length + 1)
    rw [hmore, numberLines, List.map_cons, List.tail_cons] at hrest
    have hoffset : start + extent (first :: before) + column =
        start + first.length + 1 + extent before + column := by
      rw [extent_cons]
      omega
    rw [List.cons_append, hmore, numberLines, numberLines, List.map_cons, List.tail_cons, List.map_cons, lineFrom,
      hoffset]
    dsimp only
    rw [if_pos (by omega), hrest, extent_cons, List.length_cons]
    congr 1 <;> omega

/-! ### Places in lines -/

/-- An offset of a text is so many characters from the start of a line, and no more than the line has.  Lines and
columns count from zero here. -/
structure At (text : List Char) (line column offset : Nat) : Prop where
  part : ∃ part, (fields '\n' text)[line]? = some part ∧ column ≤ part.length
  offset_eq : offset = lineStart text line + column

/-- A row around one of its members. -/
private theorem eq_append_of_getElem? {parts : List (List Char)} {line : Nat} {part : List Char}
    (h : parts[line]? = some part) :
    ∃ before after, parts = before ++ part :: after ∧ before = parts.take line ∧ before.length = line := by
  obtain ⟨hlt, rfl⟩ := List.getElem?_eq_some_iff.1 h
  refine ⟨parts.take line, parts.drop (line + 1), ?_, rfl, List.length_take_of_le (Nat.le_of_lt hlt)⟩
  rw [← List.drop_eq_getElem_cons hlt, List.take_append_drop]

private theorem exists_column {parts : List (List Char)} (hne : parts ≠ []) {offset : Nat}
    (h : offset ≤ (join ['\n'] parts).length) :
    ∃ line column part, parts[line]? = some part ∧ column ≤ part.length ∧
      offset = extent (parts.take line) + column := by
  induction parts generalizing offset with
  | nil => exact absurd rfl hne
  | cons first parts ih =>
    by_cases hfirst : offset ≤ first.length
    · exact ⟨0, offset, first, rfl, hfirst, by simp⟩
    · cases parts with
      | nil => exact absurd h hfirst
      | cons next parts =>
        rw [join_cons_cons, List.length_append, List.length_cons] at h
        have hrest : offset - (first.length + 1) ≤ (join ['\n'] (next :: parts)).length := by omega
        obtain ⟨line, column, part, hpart, hcolumn, hoffset⟩ := ih (by simp) hrest
        refine ⟨line + 1, column, part, by rwa [List.getElem?_cons_succ], hcolumn, ?_⟩
        rw [List.take_succ_cons, extent_cons]
        omega

variable {text : List Char} {line column offset : Nat}

/-- Every offset of a text lies in one of its lines. -/
theorem exists_at (h : offset ≤ text.length) : ∃ line column, At text line column offset := by
  rw [← join_fields '\n' text] at h
  obtain ⟨line, column, part, hpart, hcolumn, hoffset⟩ := exists_column (fields_ne_nil '\n' text) h
  exact ⟨line, column, ⟨part, hpart, hcolumn⟩, hoffset⟩

namespace At

/-- What stands before the offset are the lines before its line, with their line feeds, and the start of its line. -/
private theorem take_eq (h : At text line column offset) :
    ∃ part, (fields '\n' text)[line]? = some part ∧ column ≤ part.length ∧ offset ≤ text.length ∧
      text.take offset = ((fields '\n' text).take line).flatMap (· ++ ['\n']) ++ part.take column := by
  obtain ⟨⟨part, hpart, hcolumn⟩, rfl⟩ := h
  obtain ⟨before, after, hfields, hbefore, -⟩ := eq_append_of_getElem? hpart
  obtain ⟨rest, hrest⟩ := exists_join_eq before part after
  rw [← hfields, join_fields] at hrest
  have hstart : lineStart text line = (before.flatMap (· ++ ['\n'])).length := by
    rw [length_flatMap_newline, lineStart, ← hbefore]
  refine ⟨part, hpart, hcolumn, ?_, ?_⟩
  · rw [hstart, hrest, List.length_append, List.length_append]
    omega
  · rw [← hbefore, hstart]
    conv => lhs; rw [hrest]
    rw [List.take_length_add_append, List.take_append_of_le_length hcolumn]

private theorem le (h : At text line column offset) : offset ≤ text.length := by
  obtain ⟨part, -, -, hle, -⟩ := h.take_eq
  exact hle

/-- The number of a line is that of the line feeds before it. -/
private theorem count_take (h : At text line column offset) : (text.take offset).count '\n' = line := by
  obtain ⟨part, hpart, -, -, htake⟩ := h.take_eq
  have hfeeds := newline_notMem_fields text
  have hline : '\n' ∉ part.take column := fun hmem =>
    hfeeds part (List.mem_of_getElem? hpart) (List.mem_of_mem_take hmem)
  rw [htake, List.count_append, List.count_eq_zero_of_not_mem hline,
    count_flatMap_newline fun p hp => hfeeds p (List.mem_of_mem_take hp), List.length_take]
  have := (List.getElem?_eq_some_iff.1 hpart).1
  omega

theorem pointAt_eq (h : At text line column offset) :
    (ofText text).pointAt offset = ⟨line + 1, column + 1, offset⟩ := by
  have hle := h.le
  obtain ⟨⟨part, hpart, hcolumn⟩, rfl⟩ := h
  obtain ⟨before, after, hfields, hbefore, hlength⟩ := eq_append_of_getElem? hpart
  have hstart : lineStart text line = 0 + extent before := by
    rw [Nat.zero_add, lineStart, ← hbefore]
  have hbreaks : breaksFrom 0 text = ((numberLines 0 (before ++ part :: after)).map Line.offset).tail := by
    rw [← hfields, ← cons_breaksFrom, List.tail_cons]
  have hfrom := lineFrom_numberLines 1 0 before after hcolumn
  rw [← hbreaks, ← hstart, hlength] at hfrom
  simp only [pointAt, ofText, Nat.min_eq_left hle, hfrom, Point.mk.injEq, and_true]
  omega

private theorem offset?_eq (h : At text line column offset) :
    (ofText text).offset? ((line : Int) + 1) ((column : Int) + 1) = some (offset : Int) := by
  have hle := h.le
  obtain ⟨⟨part, hpart, hcolumn⟩, rfl⟩ := h
  obtain ⟨before, after, hfields, hbefore, hlength⟩ := eq_append_of_getElem? hpart
  have hget : (0 :: breaksFrom 0 text)[line]? = some (lineStart text line) := by
    rw [cons_breaksFrom, hfields, ← hlength, getElem?_numberLines, hbefore, lineStart, Nat.zero_add]
    rw [← hbefore, hlength, hbefore]
  have hline : ((line : Int) + 1 - 1).toNat = line := by omega
  rw [offset?, if_neg (by omega), hline, ofText, hget]
  simp only [Option.bind_eq_bind, Option.bind_some, Option.pure_def, Option.map_some, Option.some.injEq]
  omega

theorem offset_eq_ok (h : At text line column offset) :
    (ofText text).offset ((line : Int) + 1) ((column : Int) + 1) = .ok (offset : Int) := by
  rw [Locator.offset, h.offset?_eq]

/-- Offsets are ordered as the lines that they lie in, and in one line as their columns. -/
private theorem lt_iff {line' column' offset' : Nat} (h : At text line column offset)
    (h' : At text line' column' offset') :
    offset < offset' ↔ line < line' ∨ line = line' ∧ column < column' := by
  have hlt {line line' column column' offset offset' : Nat} (h : At text line column offset)
      (h' : At text line' column' offset') (hline : line < line') : offset < offset' := by
    obtain ⟨⟨part, hpart, hcolumn⟩, rfl⟩ := h
    have hnext := lineStart_mono text hline
    rw [lineStart_succ hpart] at hnext
    rw [h'.offset_eq]
    omega
  rcases Nat.lt_trichotomy line line' with hline | rfl | hline
  · exact iff_of_true (hlt h h' hline) (.inl hline)
  · rw [h.offset_eq, h'.offset_eq]
    omega
  · have := hlt h' h hline
    omega

end At

/-- The lines of which a locator knows are those of its text. -/
private theorem offset?_eq_none (text : List Char) {line : Int} (column : Int)
    (h : ¬(1 ≤ line ∧ line ≤ (fields '\n' text).length)) : (ofText text).offset? line column = none := by
  rw [offset?]
  split
  · rfl
  · have hlength : (0 :: breaksFrom 0 text).length = (fields '\n' text).length := by
      rw [cons_breaksFrom, List.length_map, length_numberLines]
    have hnone : (0 :: breaksFrom 0 text)[(line - 1).toNat]? = none := List.getElem?_eq_none (by omega)
    rw [ofText, hnone]
    rfl

/-- Offsets of a text lead to points and back.  The line of an offset counts the line feeds before it, and its column
what stands between it and the start of that line.  Every place in a line, its end included, is that of an offset; lines
that the text does not have are refused.  Offsets and their points have the same order. -/
theorem offset_inverts_point (text : List Char) :
    (∀ o : Nat, o ≤ text.length →
      ((ofText text).point o).offset = o ∧
      ((ofText text).point o).line = 1 + (text.take o).count '\n' ∧
      ((ofText text).point o).column = 1 + o - lineStart text ((text.take o).count '\n') ∧
      (ofText text).offset ((ofText text).point o).line ((ofText text).point o).column = .ok (o : Int)) ∧
    (∀ (line column : Int) (part : List Char), 1 ≤ line → (fields '\n' text)[(line - 1).toNat]? = some part →
      1 ≤ column → column ≤ part.length + 1 →
      ∃ o, (ofText text).offset line column = .ok o ∧
        ((ofText text).point o).line = line ∧ ((ofText text).point o).column = column) ∧
    (∀ line column : Int, ¬(1 ≤ line ∧ line ≤ (fields '\n' text).length) →
      (ofText text).offset line column = .error (.value (.line line))) ∧
    ∀ o o' : Nat, o ≤ text.length → o' ≤ text.length →
      (toLex (((ofText text).point o).line, ((ofText text).point o).column) <
        toLex (((ofText text).point o').line, ((ofText text).point o').column) ↔ o < o') := by
  have hpoint {line column offset : Nat} (h : At text line column offset) :
      (ofText text).point offset = ⟨line + 1, column + 1, offset⟩ := by
    rw [point, Int.toNat_natCast, h.pointAt_eq]
  refine ⟨fun o ho => ?_, fun line column part hline hpart hcolumn hle => ?_, fun line column h => ?_,
    fun o o' ho ho' => ?_⟩
  · obtain ⟨line, column, h⟩ := exists_at ho
    rw [hpoint h, h.count_take, h.offset_eq_ok]
    refine ⟨rfl, Int.add_comm _ _, ?_, rfl⟩
    rw [h.offset_eq]
    dsimp only
    omega
  · have h : At text (line - 1).toNat (column - 1).toNat (lineStart text (line - 1).toNat + (column - 1).toNat) :=
      ⟨⟨part, hpart, by omega⟩, rfl⟩
    have hoffset := h.offset_eq_ok
    rw [show ((line - 1).toNat : Int) + 1 = line by omega, show ((column - 1).toNat : Int) + 1 = column by omega]
      at hoffset
    refine ⟨_, hoffset, ?_⟩
    rw [hpoint h]
    dsimp only
    omega
  · rw [Locator.offset, offset?_eq_none text column h]
  · obtain ⟨line, column, h⟩ := exists_at ho
    obtain ⟨line', column', h'⟩ := exists_at ho'
    rw [hpoint h, hpoint h', h.lt_iff h', Prod.Lex.toLex_lt_toLex]
    dsimp only
    omega

/-- A text of three lines, of which the second is empty and the third as well: the line feed at the end opens it. -/
theorem offset_inverts_point_feeds :
    (3 ≤ "ab\n\n".toList.length ∧
      (ofText "ab\n\n".toList).offset ((ofText "ab\n\n".toList).point (3 : Nat)).line
        ((ofText "ab\n\n".toList).point (3 : Nat)).column = .ok 3 ∧
      (ofText "ab\n\n".toList).point (3 : Nat) = ⟨2, 1, 3⟩) ∧
    ((fields '\n' "ab\n\n".toList)[((1 : Int) - 1).toNat]? = some ['a', 'b'] ∧
      ∃ o, (ofText "ab\n\n".toList).offset 1 3 = .ok o ∧ ((ofText "ab\n\n".toList).point o).line = 1 ∧
        ((ofText "ab\n\n".toList).point o).column = 3) ∧
    (¬((1 : Int) ≤ 4 ∧ 4 ≤ (fields '\n' "ab\n\n".toList).length) ∧
      (ofText "ab\n\n".toList).offset 4 1 = .error (.value (.line 4))) ∧
    (toLex (((ofText "ab\n\n".toList).point (2 : Nat)).line, ((ofText "ab\n\n".toList).point (2 : Nat)).column) <
      toLex (((ofText "ab\n\n".toList).point (4 : Nat)).line, ((ofText "ab\n\n".toList).point (4 : Nat)).column) ↔
        2 < 4) := by
  obtain ⟨hpoint, hoffset, hmissing, horder⟩ := offset_inverts_point "ab\n\n".toList
  refine ⟨⟨by decide, (hpoint 3 (by decide)).2.2.2, by decide⟩, ⟨by decide, ?_⟩, ⟨by decide, ?_⟩, ?_⟩
  · exact hoffset 1 3 ['a', 'b'] (by decide) (by decide) (by decide) (by decide)
  · exact hmissing 4 1 (by decide)
  · exact horder 2 4 (by decide) (by decide)

end Locator

end MarkdownTree
