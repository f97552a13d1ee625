import MarkdownTree.Proofs.Column
import MarkdownTree.Proofs.Leaf
import MarkdownTree.Proofs.Respelling

/-!
# Quiet lines

A quiet line opens nothing but a paragraph and goes on one, whatever stands around it (`IsQuiet`), so rows of quiet
lines with an underline after them are a heading (`Setting.chunk_underlined`).  A line is quiet if it starts with a
harmless text, and more may come after that text so long as it does not go on with a number (`Harmless.isQuiet`), if
emphasis starts it (`isQuiet_of_marks`), or a code span that ends on it (`isQuiet_of_ticks`).
-/

namespace MarkdownTree.Scan

open Text Print

/-- A line that opens nothing but a paragraph, and goes on one. -/
structure IsQuiet (line : List Char) : Prop where
  head : ∃ c ∈ line.head?, isBlank c = false
  fence : Fence.opening? line = none
  heading : headingDepth? line = none
  rule : isRule line = false
  underline : underlineDepth? line = none
  quote : line.head? ≠ some '>'
  marker : marker? line = none

namespace IsQuiet

variable {l : Line} (h : IsQuiet l.text)
include h

private theorem exists_cons : ∃ c cs, l.text = c :: cs ∧ isBlank c = false := by
  obtain ⟨c, hc, hblank⟩ := h.head
  obtain ⟨cs, hcs⟩ := List.head?_eq_some_iff.1 hc
  exact ⟨c, cs, hcs, hblank⟩

theorem trimStart_eq : l.trimStart = l := by
  obtain ⟨c, cs, htext, hblank⟩ := h.exists_cons
  exact Line.trimStart_of_head htext hblank

private theorem indent_eq (tab : Rat) : l.indent tab = 0 := by
  obtain ⟨c, cs, htext, hblank⟩ := h.exists_cons
  exact Line.indent_of_head htext hblank tab

theorem not_blank : l.isBlank = false := by
  obtain ⟨c, cs, htext, hblank⟩ := h.exists_cons
  exact Line.isBlank_of_head htext hblank

private theorem read?_eq (tab : Rat) : Marker.read? tab l = none := by
  unfold Marker.read?
  dsimp only
  rw [h.trimStart_eq, h.marker]
  split <;> rfl

theorem goesOn (s : Setting) : s.goesOn l = true := by
  have hinterrupts : s.interrupts l = false := by
    unfold Setting.interrupts
    dsimp only
    rw [h.indent_eq, h.trimStart_eq, h.fence, h.heading, h.rule, beq_false_of_ne h.quote, h.read?_eq,
      if_neg (by decide)]
    simp
  have hunderline : s.underline? l = none := by
    rw [Setting.underline?, h.trimStart_eq, h.underline, ite_self]
  rw [Setting.goesOn, h.not_blank, hunderline, hinterrupts]
  rfl

theorem chunk_eq (s : Setting) (limit : Value) (ls : List Line) :
    s.chunk limit l ls = s.paragraph (s.paragraphNotes limit l l) l ls := by
  unfold Setting.chunk
  dsimp only
  rw [h.indent_eq, h.trimStart_eq, h.fence, h.heading, h.rule, beq_false_of_ne h.quote, h.read?_eq, if_neg (by decide),
    ite_self]
  dsimp only
  rw [if_neg (by decide), Bool.and_false, if_neg (by decide)]

end IsQuiet

/-- Quiet lines are a heading if an underline comes after them, whatever comes after that. -/
theorem Setting.chunk_underlined (s : Setting) (limit : Value) {l under : Line} {ls : List Line}
    (h : ∀ x ∈ l :: ls, IsQuiet x.text) {depth : Nat} (hunder : s.underline? under = some depth) (rest : List Line) :
    s.chunk limit l (ls ++ under :: rest) =
      (.heading ⟨l.offset, under.contentStop⟩ depth (paragraphLines (l :: ls)) (s.paragraphNotes limit l l),
        ls.length + 1) := by
  obtain ⟨hl, hls⟩ := List.forall_mem_cons.1 h
  have hends : s.goesOn under = false := by
    rw [goesOn, hunder, Option.isNone_some, Bool.and_false, Bool.false_and]
  have htake : (ls ++ under :: rest).takeWhile s.goesOn = ls := by
    rw [List.takeWhile_append_of_pos fun x hx => (hls x hx).goesOn s,
      List.takeWhile_cons_of_neg (by rw [hends]; decide),
      List.append_nil]
  rw [hl.chunk_eq]
  unfold paragraph
  dsimp only
  rw [htake, List.drop_left, List.head?_cons]
  dsimp only
  rw [hunder, hl.trimStart_eq]

theorem Setting.underline?_marks (s : Setting) {under : Line} {mark : Char} (hmark : mark = '=' ∨ mark = '-')
    (hunder : under.text = List.replicate 3 mark) : s.underline? under = some (if mark = '=' then 1 else 2) := by
  have hblank : isBlank mark = false := by rcases hmark with rfl | rfl <;> decide
  rw [underline?, Line.indent_of_head hunder hblank, Line.trimStart_of_head hunder hblank, if_neg (by decide), hunder]
  rcases hmark with rfl | rfl <;> rfl

/-- Heading marks with a gap or nothing after them are a heading, whatever comes after that, and interrupt
paragraphs. -/
theorem Setting.chunk_marked (s : Setting) (limit : Value) {l : Line} {depth : Nat} (hone : 1 ≤ depth)
    (hsix : depth ≤ 6)
    {content : List Char} (hl : l.text = List.replicate depth '#' ++ content) (hcontent : endsOrGap content = true)
    (rest : List Line) : s.chunk limit l rest = (markedHeading depth l, 0) ∧ s.interrupts l = true := by
  have hhash : isBlank '#' = false := by decide
  have hhead : l.text = '#' :: (List.replicate (depth - 1) '#' ++ content) := by
    obtain ⟨n, rfl⟩ := Nat.exists_eq_add_of_le' hone
    exact hl
  have htake : l.text.takeWhile (· == '#') = List.replicate depth '#' := by
    have hnone : content.takeWhile (· == '#') = [] := by
      cases content with
      | nil => rfl
      | cons c cs =>
        refine List.takeWhile_cons_of_neg ?_
        simp only [beq_iff_eq]
        rintro rfl
        cases hcontent
    rw [hl, List.takeWhile_append_of_pos (by simp), hnone, List.append_nil]
  have hdepth : headingDepth? l.text = some depth := by
    unfold headingDepth?
    dsimp only
    rw [htake, hl, List.length_replicate, List.drop_left' List.length_replicate, if_pos ⟨hone, hsix, hcontent⟩]
  constructor
  · unfold chunk
    dsimp only
    rw [Line.indent_of_head hhead hhash, Line.trimStart_of_head hhead hhash, if_neg (by decide), hdepth, hhead,
      opening?_eq_none (by decide) (by decide)]
  · unfold interrupts
    dsimp only
    rw [Line.indent_of_head hhead hhash, Line.trimStart_of_head hhead hhash, if_neg (by decide), hdepth]
    rfl

/-! ### Starts of quiet lines -/

/-- A start of a line that stands for itself: neither a mark that opens something nor a number with a mark after it. -/
structure Harmless (line : List Char) : Prop where
  head : ∃ c ∈ line.head?, isBlank c = false ∧ isLineMark c = false ∧ c ∉ ['*', '_', '\x60']
  number : ¬StartsNumbered line

/-- Whatever number a line starts with, this does not go on with it, nor is it the mark after the number. -/
def Closes (cs : List Char) : Prop :=
  ∀ c ∈ cs.head?, isDigit c = false ∧ c ≠ '.' ∧ c ≠ ')'

theorem Harmless.of_head {c : Char} (cs : List Char) (hblank : isBlank c = false) (hline : isLineMark c = false)
    (hmark : c ∉ ['*', '_', '\x60']) (hdigit : isDigit c = false) : Harmless (c :: cs) := by
  refine ⟨⟨c, rfl, hblank, hline, hmark⟩, ?_⟩
  rintro ⟨ds, d, rest, hsplit, hds, hone, -, -⟩
  obtain ⟨e, ds, rfl⟩ := List.exists_cons_of_length_pos hone
  obtain ⟨rfl, -⟩ := List.cons.inj hsplit
  have htrue := hds c (.head _)
  rw [hdigit] at htrue
  cases htrue

/-- A number and its mark that stand at the start of a text with more after it, which does not go on with the number,
stand at the start of the text. -/
private theorem startsNumbered_of_append {line cs : List Char} (hcs : Closes cs) (h : StartsNumbered (line ++ cs)) :
    line = [] ∨ StartsNumbered line := by
  obtain ⟨ds, d, rest, hsplit, hds, hone, hnine, hd⟩ := h
  rcases List.append_eq_append_iff.1 hsplit with ⟨more, rfl, hmore⟩ | ⟨more, rfl, hmore⟩
  · -- What comes after the text would go on with the number or be its mark.
    cases more with
    | nil =>
      obtain rfl : cs = d :: rest := hmore
      rcases hd with rfl | rfl
      · exact absurd rfl (hcs _ rfl).2.1
      · exact absurd rfl (hcs _ rfl).2.2
    | cons c more =>
      subst hmore
      have hdigit := hds c (by simp)
      rw [(hcs c rfl).1] at hdigit
      cases hdigit
  · cases more with
    | nil =>
      obtain rfl : d :: rest = cs := hmore
      rcases hd with rfl | rfl
      · exact absurd rfl (hcs _ rfl).2.1
      · exact absurd rfl (hcs _ rfl).2.2
    | cons c more =>
      obtain ⟨rfl, -⟩ := List.cons.inj hmore
      exact .inr ⟨ds, d, more, rfl, hds, hone, hnine, hd⟩

namespace Harmless

variable {line : List Char} (h : Harmless line)
include h

theorem append {cs : List Char} (hcs : Closes cs) : Harmless (line ++ cs) := by
  obtain ⟨c, hc, hhead⟩ := h.head
  obtain ⟨rest, rfl⟩ := List.head?_eq_some_iff.1 hc
  refine ⟨⟨c, rfl, hhead⟩, fun hnumber => ?_⟩
  rcases startsNumbered_of_append hcs hnumber with hnil | hnumber
  · cases hnil
  · exact h.number hnumber

theorem of_prefix {cs : List Char} (hbegins : cs <+: line) (hne : cs ≠ []) : Harmless cs := by
  obtain ⟨more, rfl⟩ := hbegins
  obtain ⟨c, hc, hhead⟩ := h.head
  obtain ⟨d, ds, rfl⟩ := List.exists_cons_of_ne_nil hne
  exact ⟨⟨c, hc, hhead⟩, fun hnumber => h.number (hnumber.append more)⟩

/-- A line with a harmless start is quiet. -/
theorem isQuiet : IsQuiet line := by
  obtain ⟨c, hc, hblank, hline, hmark⟩ := h.head
  obtain ⟨cs, rfl⟩ := List.head?_eq_some_iff.1 hc
  have hne {d : Char} (hd : isLineMark d = true) : c ≠ d := by
    rintro rfl
    rw [hline] at hd
    cases hd
  simp only [List.mem_cons, List.not_mem_nil, or_false, not_or] at hmark
  obtain ⟨hstar, hunder, htick⟩ := hmark
  refine ⟨⟨c, rfl, hblank⟩, opening?_eq_none htick (hne rfl), headingDepth?_eq_none (hne rfl),
    isRule_eq_false (hne rfl) hstar hunder, underlineDepth?_eq_none (hne rfl) (hne rfl), by simpa using hne rfl, ?_⟩
  rw [marker?, if_neg]
  · dsimp only
    split
    · rename_i d after hdrop
      refine if_neg fun hcond => h.number ⟨_, d, after, ?_, ?_, hcond.1, hcond.2.1, hcond.2.2.1⟩
      · rw [← hdrop, takeWhile_append_drop]
      · exact fun x hx => List.mem_takeWhile_imp hx
    · rfl
  · rintro ⟨rfl | rfl | rfl, -⟩
    · cases hline
    · cases hline
    · exact hstar rfl

end Harmless

/-- A line that starts with delimiters and something that is none, nor blank, is quiet: it is no rule, and the first
delimiter is no list marker. -/
theorem isQuiet_of_marks {marks rest : List Char} {c : Char} (hne : marks ≠ [])
    (hmarks : ∀ d ∈ marks, d = '*' ∨ d = '_')
    (hblank : isBlank c = false) (hstar : c ≠ '*') (hunder : c ≠ '_') : IsQuiet (marks ++ c :: rest) := by
  obtain ⟨d, marks, rfl⟩ := List.exists_cons_of_ne_nil hne
  obtain ⟨hd, hmarks⟩ := List.forall_mem_cons.1 hmarks
  have hgap := isGap_of_not_isBlank hblank
  have hrule : isRule (d :: marks ++ c :: rest) = false := by
    have hall : (marks ++ c :: rest).all (fun e => e == d || isGap e) = false := by
      refine List.all_eq_false.2 ⟨c, by simp, ?_⟩
      rcases hd with rfl | rfl
      · simp [hstar, hgap]
      · simp [hunder, hgap]
    rw [List.cons_append, isRule, hall, Bool.and_false, Bool.false_and]
  have hnext : endsOrGap (marks ++ c :: rest) = false := by
    cases marks with
    | nil => exact hgap
    | cons e marks => rcases hmarks e (.head _) with rfl | rfl <;> rfl
  have hmarker : marker? (d :: marks ++ c :: rest) = none := by
    have hdigits : (d :: (marks ++ c :: rest)).takeWhile isDigit = [] := by
      rcases hd with rfl | rfl
      · exact List.takeWhile_cons_of_neg (by decide +kernel)
      · exact List.takeWhile_cons_of_neg (by decide +kernel)
    rw [List.cons_append, marker?, if_neg (by simp [hnext])]
    dsimp only
    rw [hdigits]
    exact if_neg fun hcond => absurd hcond.1 (by decide)
  rw [List.cons_append] at hrule hmarker ⊢
  have hother : d ≠ '\x60' ∧ d ≠ '~' ∧ d ≠ '#' ∧ d ≠ '=' ∧ d ≠ '-' ∧ d ≠ '>' ∧ isBlank d = false := by
    rcases hd with rfl | rfl <;> decide
  obtain ⟨htick, htilde, hhash, hequals, hhyphen, hquote, hvisible⟩ := hother
  exact ⟨⟨d, rfl, hvisible⟩, opening?_eq_none htick htilde, headingDepth?_eq_none hhash, hrule,
    underlineDepth?_eq_none hequals hhyphen, by simpa using hquote, hmarker⟩

/-- A line that starts with backticks, and has one again later, opens no code block. -/
theorem isQuiet_of_ticks {n : Nat} {c : Char} {cs : List Char} (hpos : 0 < n) (hc : c ≠ '\x60') (hcs : '\x60' ∈ cs) :
    IsQuiet (List.replicate n '\x60' ++ c :: cs) := by
  obtain ⟨n, rfl⟩ := Nat.exists_eq_add_of_le' hpos
  have hfence : Fence.opening? (List.replicate (n + 1) '\x60' ++ c :: cs) = none := by
    have htake : (List.replicate n '\x60' ++ c :: cs).takeWhile (· == '\x60') = List.replicate n '\x60' := by
      rw [List.takeWhile_append_of_pos (by simp), List.takeWhile_cons_of_neg (by simpa using hc), List.append_nil]
    have hinfo : ('\x60' :: (List.replicate n '\x60' ++ c :: cs)).drop (n + 1) = c :: cs := by
      rw [List.drop_succ_cons, List.drop_left' List.length_replicate]
    rw [List.replicate_succ, List.cons_append, Fence.opening?, Fence.read?, htake, List.length_replicate,
      hinfo]
    split
    · simp [Fence.canOpen, hcs]
    · rfl
  have hmarker : marker? (List.replicate (n + 1) '\x60' ++ c :: cs) = none := by
    rw [List.replicate_succ, List.cons_append, marker?, if_neg (by simp)]
    dsimp only
    rw [List.takeWhile_cons_of_neg (by decide +kernel)]
    exact if_neg fun hcond => absurd hcond.1 (by decide)
  rw [List.replicate_succ, List.cons_append] at hfence hmarker ⊢
  exact ⟨⟨'\x60', rfl, by decide⟩, hfence, headingDepth?_eq_none (by decide),
    isRule_eq_false (by decide) (by decide) (by decide), underlineDepth?_eq_none (by decide) (by decide), by simp,
    hmarker⟩

end MarkdownTree.Scan
