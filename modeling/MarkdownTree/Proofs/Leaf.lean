import MarkdownTree.Proofs.Phrase
import MarkdownTree.Proofs.Sign
import MarkdownTree.Scan.Chunk

/-!
# Leaf blocks

A chunk lies between two places of the source (`Chunk.Within`) when its span does, its inline content is a phrase there
and its inner lines fit there.  The leaves that a line opens lie between the places between which the lines that they
take fit: code blocks (`within_indentedCode`, `within_fencedCode`), headings (`within_markedHeading`) and paragraphs
(`within_paragraph`).
-/

namespace MarkdownTree.Scan

open Text

/-- Items of a list, one after the other between two places. -/
def ItemsWithin (source : List Char) : Nat → List ItemChunk → Nat → Prop
  | lo, [], hi => lo ≤ hi
  | lo, item :: items, hi =>
    lo ≤ item.marker.start ∧ Line.Fit source item.marker.start item.lines item.stop ∧
      ItemsWithin source item.stop items hi

/-- A chunk lies between two places of a source. -/
def Chunk.Within (source : List Char) (lo hi : Nat) : Chunk → Prop
  | .code span _ lang details _ =>
    lo ≤ span.start ∧ span.start ≤ span.stop ∧ span.stop ≤ hi ∧ (∀ cs ∈ lang, cs ≠ [] ∧ ' ' ∉ cs) ∧
      (lang = none → details = none)
  | .heading span depth lines _ =>
    lo ≤ span.start ∧ Phrase source span.start (readLines lines).trees span.stop ∧ span.stop ≤ hi ∧
      1 ≤ depth ∧ depth ≤ 6
  | .paragraph span lines _ =>
    lo ≤ span.start ∧ Phrase source span.start (readLines lines).trees span.stop ∧ span.stop ≤ hi ∧
      (readLines lines).trees ≠ []
  | .rule span => lo ≤ span.start ∧ span.start ≤ span.stop ∧ span.stop ≤ hi
  | .quote span lines => lo ≤ span.start ∧ Line.Fit source span.start lines span.stop ∧ span.stop ≤ hi
  | .list marker items =>
    items ≠ [] ∧ (∀ n ∈ marker.number, n ≤ 999999999) ∧ lo ≤ marker.start ∧ ItemsWithin source marker.start items hi

variable {source : List Char} {lo hi : Nat} {l : Line} {ls : List Line}

namespace Line.Fit

/-- What a line that says something says ends no later than what a later one says. -/
theorem contentStop_le_last {first last : Line} (h : Fit source lo ls hi) (hfirst : first ∈ ls)
    (hlast : ls.getLast? = some last) (hb : last.isBlank = false) : first.contentStop ≤ last.contentStop := by
  obtain ⟨init, rfl⟩ := List.getLast?_eq_some_iff.1 hlast
  rcases List.mem_append.1 hfirst with hinit | hmem
  · have := (List.pairwise_append.1 h.apart).2.2 first hinit last (.head _)
    have := contentStop_le first
    have := offset_lt_contentStop hb
    omega
  · rw [List.mem_singleton.1 hmem]

/-- The start of a block comes before the end of its last line that says something. -/
theorem trimStart_offset_le {last : Line} (h : Fit source lo (l :: ls) hi) (hl : l.isBlank = false)
    (hlast : (l :: ls).getLast? = some last) (hb : last.isBlank = false) :
    lo ≤ l.trimStart.offset ∧ l.trimStart.offset < last.contentStop ∧ last.contentStop ≤ hi := by
  have := (trimStart_endOf l).contentStop_eq (trimStart_not_blank hl)
  have := offset_lt_contentStop (trimStart_not_blank hl)
  have := h.contentStop_le_last (.head _) hlast hb
  have := h.above l (.head _)
  have := (trimStart_endOf l).offset_le
  exact ⟨by omega, by omega, h.below last (List.mem_of_getLast? hlast) hb⟩

end Line.Fit

namespace Setting

variable (s : Setting)

/-! ### Code blocks -/

/-- The last of a line and of those after it that are left without the blank lines at their end is not blank. -/
theorem last_not_blank {ms : List Line} (hl : l.isBlank = false) :
    ((dropEndWhile Line.isBlank ms).getLast?.getD l).isBlank = false := by
  cases hlast : (dropEndWhile Line.isBlank ms).getLast? with
  | none => exact hl
  | some last => exact getLast?_dropEndWhile hlast

theorem within_indentedCode (hl : l.isBlank = false)
    (h : Line.Fit source lo (l :: ls.take (s.indentedCode l ls).2) hi) :
    (s.indentedCode l ls).1.Within source lo hi := by
  have hinit : s.indentedLines ls <+: ls := (prefix_dropEndWhile _ _).trans <| List.takeWhile_prefix _
  have htake : ls.take (s.indentedLines ls).length = s.indentedLines ls := (List.prefix_iff_eq_take.1 hinit).symm
  simp only [indentedCode] at h ⊢
  rw [htake] at h
  obtain ⟨-, hlt, hle⟩ := h.trimStart_offset_le hl List.getLast?_cons (last_not_blank hl)
  have hoffset := Line.dropColumns_offset_le s.tab 4 l
  have hlo := h.above l (.head _)
  have hstart := (Line.dropColumns_endOf s.tab 4 l).offset_le
  exact ⟨hlo.trans hstart, hoffset.trans (Nat.le_of_lt hlt), hle, by simp, fun _ => rfl⟩

/-- What stands after a fence: a language that is one word, and details only with a language. -/
private theorem info_fields (info : List Char) :
    (∀ cs ∈ nonEmpty ((trim info).takeWhile (· != ' ')), cs ≠ [] ∧ ' ' ∉ cs) ∧
      (nonEmpty ((trim info).takeWhile (· != ' ')) = none →
        nonEmpty (trim ((trim info).drop (((trim info).takeWhile (· != ' ')).length + 1))) = none) := by
  unfold nonEmpty
  split
  · rename_i hnil
    rw [List.isEmpty_iff] at hnil
    rw [hnil, List.length_nil, Nat.zero_add, drop_takeWhile_trim info hnil]
    simp [trim, trimStart, trimEnd, dropEndWhile]
  · rename_i hne
    rw [List.isEmpty_iff] at hne
    simp only [Option.mem_def, Option.some.injEq, forall_eq', reduceCtorEq, false_implies, and_true]
    refine ⟨hne, fun hmem => ?_⟩
    have := List.mem_takeWhile_imp hmem
    simp at this

theorem within_fencedCode {fence : Fence} (hl : l.isBlank = false)
    (hfence : Fence.opening? l.trimStart.text = some fence)
    (h : Line.Fit source lo (l :: ls.take (s.fencedCode fence l ls).2) hi) :
    (s.fencedCode fence l ls).1.Within source lo hi := by
  have hinfo := info_fields fence.info
  obtain ⟨hsize, hmark⟩ := Fence.opening?_eq_some hfence
  unfold fencedCode at h ⊢
  dsimp only at h ⊢
  have hsplit := takeWhile_append_drop (fun x : Line => !(x.indent s.tab < 4 && fence.closedBy x.trimStart.text)) ls
  have hnot := List.head?_dropWhile_not (fun x : Line => !(x.indent s.tab < 4 && fence.closedBy x.trimStart.text)) ls
  rw [← drop_length_takeWhile] at hnot
  revert h hsplit hnot
  generalize ls.takeWhile (fun x => !(x.indent s.tab < 4 && fence.closedBy x.trimStart.text)) = inner
  -- A line closes the block, or it goes on to the end and blank lines there do not count.
  cases hdrop : ls.drop inner.length with
  | cons closing rest =>
    intro h hsplit hnot
    have htake : ls.take (inner.length + 1) = inner ++ [closing] := by
      rw [← hsplit, List.take_length_add_append]
      rfl
    have hclosing : closing.isBlank = false := by
      simp only [List.head?_cons, Bool.not_eq_false', Bool.and_eq_true] at hnot
      exact (Line.trimStart_endOf closing).not_blank (Fence.not_blank_of_closedBy hsize hmark hnot.2)
    dsimp only at h ⊢
    rw [htake] at h
    obtain ⟨hlo, hlt, hle⟩ := h.trimStart_offset_le hl (List.getLast?_concat (l := l :: inner)) hclosing
    exact ⟨hlo, Nat.le_of_lt hlt, hle, hinfo⟩
  | nil =>
    intro h hsplit hnot
    have htake : ls.take inner.length = inner := by
      rw [← hsplit, List.append_nil, List.take_length]
    dsimp only at h ⊢
    rw [htake] at h
    have hkept := h.sublist ((prefix_dropEndWhile Line.isBlank inner).sublist.cons_cons l)
    obtain ⟨hlo, hlt, hle⟩ := hkept.trimStart_offset_le hl List.getLast?_cons (last_not_blank hl)
    exact ⟨hlo, Nat.le_of_lt hlt, hle, hinfo⟩

/-! ### Headings and paragraphs -/

theorem within_markedHeading {body : Line} {depth : Nat} (hbody : body.isBlank = false)
    (hstands : body.StandsIn source) (hdepth : headingDepth? body.text = some depth) :
    (markedHeading depth body).Within source body.offset body.contentStop := by
  obtain ⟨hone, hsix, hlen⟩ := headingDepth?_eq_some hdepth
  have hle := Nat.le_of_lt (Line.offset_lt_contentStop hbody)
  have hcontent : (body.drop depth).trimStart.EndOf body := (Line.trimStart_endOf _).trans (Line.drop_endOf hlen)
  refine ⟨Nat.le_refl _, ?_, Nat.le_refl _, hone, hsix⟩
  generalize (body.drop depth).trimStart = content at hcontent
  have hinit := prefix_headingText content.text
  cases hb : content.isBlank with
  | true =>
    -- Nothing is said, but the line may start beyond the end of what its block says.
    have hnil : trimEnd content.text = [] := dropEndWhile_eq_nil.2 (List.all_eq_true.1 hb)
    rw [hnil, List.prefix_nil] at hinit
    rw [trees_readLines_eq_nil (by simpa [contentOf, join] using hinit)]
    exact .nil hle
  | false =>
    have hstop := hcontent.contentStop_eq hb
    refine phrase_readLines ⟨by simp, ?_, ?_, ?_, by simp⟩ <;> simp only [List.mem_singleton, forall_eq]
    · exact (hcontent.standsIn hstands).init (hinit.trans (prefix_dropEndWhile _ _))
    · exact hcontent.offset_le
    · rw [← hstop]
      exact Nat.add_le_add_left hinit.length_le _

/-- The lines of a paragraph go from the start of what the first says to the end of what the last says. -/
theorem joined_paragraphLines (h : Line.Fit source lo (l :: ls) hi) (hls : ∀ x ∈ l :: ls, x.isBlank = false) :
    Joined source l.trimStart.offset (paragraphLines (l :: ls)) (ls.getLast?.getD l).contentStop := by
  have hend := Line.trimStart_endOf l
  have hl := hend.standsIn (h.stands l (.head _))
  induction ls generalizing l lo with
  | nil =>
    have hstop := hend.contentStop_eq (Line.trimStart_not_blank (hls l (.head _)))
    refine ⟨by simp [paragraphLines], ?_, ?_, ?_, by simp [paragraphLines]⟩
      <;> simp only [paragraphLines, List.mem_singleton, forall_eq]
    · exact hl.init (prefix_dropEndWhile _ _)
    · exact Nat.le_refl _
    · exact Nat.le_of_eq hstop
  | cons m ls ih =>
    have hm := Line.trimStart_endOf m
    have hrest := ih h.tail (List.forall_mem_cons.1 hls).2 hm (hm.standsIn (h.stands m (by simp)))
    rw [List.getLast?_cons, Option.getD_some]
    refine hrest.cons hl (Nat.le_refl _) ?_
    rw [hend.stop_eq]
    exact (List.rel_of_pairwise_cons h.apart (.head _)).trans_le hm.offset_le

theorem paragraphLines_getLast? (l : Line) (ls : List Line) :
    ∃ x, (paragraphLines (l :: ls)).getLast? = some x ∧ x.stop = (ls.getLast?.getD l).trimStart.contentStop := by
  induction ls generalizing l with
  | nil => exact ⟨_, rfl, rfl⟩
  | cons m ls ih =>
    obtain ⟨x, hx, hstop⟩ := ih m
    refine ⟨x, ?_, ?_⟩
    · rw [paragraphLines, List.getLast?_cons, hx]
      · rfl
      · simp
    · rw [List.getLast?_cons, Option.getD_some, hstop]

private theorem contentOf_paragraphLines_ne_nil (ls : List Line) (hl : l.isBlank = false) :
    contentOf (paragraphLines (l :: ls)) ≠ [] := by
  cases ls with
  | nil => exact trimEnd_ne_nil (Line.trimStart_not_blank hl)
  | cons m ls =>
    obtain ⟨x, hx, -⟩ := paragraphLines_getLast? m ls
    rw [paragraphLines]
    · cases hms : paragraphLines (m :: ls) with
      | nil =>
        rw [hms] at hx
        cases hx
      | cons y ys => simp [contentOf_cons_cons]
    · simp

/-- A line whose text underlines a heading is not blank. -/
theorem underline?_eq_some {next : Line} {depth : Nat} (h : s.underline? next = some depth) :
    1 ≤ depth ∧ depth ≤ 2 ∧ next.isBlank = false := by
  unfold underline? at h
  split at h
  · cases h
  · obtain ⟨hone, htwo, hb⟩ := underlineDepth?_eq_some h
    exact ⟨hone, htwo, (Line.trimStart_endOf next).not_blank hb⟩

theorem not_blank_of_goesOn {x : Line} (h : s.goesOn x = true) : x.isBlank = false := by
  simp only [goesOn, Bool.and_eq_true, Bool.not_eq_true'] at h
  exact h.1.1

theorem within_paragraph (notes : List Note) (hl : l.isBlank = false)
    (h : Line.Fit source lo (l :: ls.take (s.paragraph notes l ls).2) hi) :
    (s.paragraph notes l ls).1.Within source lo hi := by
  have hmore : ∀ x ∈ l :: ls.takeWhile s.goesOn, x.isBlank = false :=
    List.forall_mem_cons.2 ⟨hl, fun x hx => s.not_blank_of_goesOn (List.mem_takeWhile_imp hx)⟩
  have hsplit := takeWhile_append_drop s.goesOn ls
  unfold paragraph at h ⊢
  dsimp only at h ⊢
  revert h hmore hsplit
  generalize ls.takeWhile s.goesOn = more
  intro h hmore hsplit
  have htrees := trees_readLines_ne_nil (contentOf_paragraphLines_ne_nil more hl)
  have hlast : more.getLast?.getD l ∈ l :: more := List.mem_of_getLast? List.getLast?_cons
  have hlastStop := (Line.trimStart_endOf _).contentStop_eq (Line.trimStart_not_blank (hmore _ hlast))
  have hparagraph (hfit : Line.Fit source lo (l :: ls.take more.length) hi) :
      (Chunk.paragraph ⟨l.trimStart.offset, ((paragraphLines (l :: more)).getLast?.getD l).stop⟩
        (paragraphLines (l :: more)) notes).Within source lo hi := by
    have htake : ls.take more.length = more := (congrArg (List.take more.length) hsplit.symm).trans List.take_left
    rw [htake] at hfit
    obtain ⟨x, hx, hstop⟩ := paragraphLines_getLast? l more
    obtain ⟨hlo, -, hle⟩ := hfit.trimStart_offset_le hl List.getLast?_cons (hmore _ hlast)
    rw [hx, Option.getD_some, hstop, hlastStop]
    exact ⟨hlo, phrase_readLines (joined_paragraphLines hfit hmore), hle, htrees⟩
  -- The lines are a paragraph unless the next one underlines them.
  cases hdrop : ls.drop more.length with
  | nil =>
    rw [hdrop] at h
    exact hparagraph h
  | cons next rest =>
    rw [hdrop] at h hsplit
    simp only [List.head?_cons] at h ⊢
    cases hunder : s.underline? next with
    | none =>
      rw [hunder] at h
      exact hparagraph h
    | some depth =>
      rw [hunder] at h
      obtain ⟨hone, htwo, hnext⟩ := s.underline?_eq_some hunder
      have htake : ls.take (more.length + 1) = more ++ [next] := by
        rw [← hsplit, List.take_length_add_append]
        rfl
      dsimp only at h ⊢
      rw [htake, ← List.cons_append] at h
      have hjoined := joined_paragraphLines (h.sublist (List.sublist_append_left _ _)) hmore
      obtain ⟨hlo, -, hle⟩ := h.trimStart_offset_le hl (List.getLast?_concat (l := l :: more)) hnext
      have hstop := h.contentStop_le_last (List.mem_append_left _ hlast) List.getLast?_concat hnext
      exact ⟨hlo, phrase_readLines (hjoined.mono hstop), hle, hone, htwo.trans (by decide)⟩

end Setting

end MarkdownTree.Scan
