import MarkdownTree.Proofs.CodeBlock
import MarkdownTree.Proofs.ItemLine
import MarkdownTree.Proofs.Taken

/-!
# How far blocks reach

The lines of a block are cut off a row as they are cut when they stand alone, so long as what comes after them does not
go on with the block.  Marked headings, underlined headings, rules and closed code blocks end by themselves; a paragraph
ends before a line that interrupts it (`Setting.cuts_paragraph`), a quote before a line without a quote mark
(`Setting.cuts_quote`), and a list before a line that belongs to none of its items and opens no further one
(`Setting.cuts_list`).  A list also takes the blank lines that come after it.
-/

namespace MarkdownTree.Scan

open Text Print

namespace Setting

variable (s : Setting)

/-! ### What ends a block -/

/-- The lines do not go on a paragraph before them, nor do they underline it. -/
def EndsParagraph (rest : List Line) : Prop :=
  ∀ l ∈ rest.head?, s.goesOn l = false ∧ s.underline? l = none

/-- The lines do not go on a quote before them. -/
def EndsQuote (rest : List Line) : Prop :=
  ∀ l ∈ rest.head?, s.quoted? l = none

/-- The lines do not go on an item before them, but for blank ones at their start. -/
structure EndsItem (rest : List Line) : Prop where
  lazy : ∀ l ∈ rest.head?, l.isBlank = true ∨ ∀ previous fence, s.isLazy previous fence l = false
  indent : ∀ l ∈ (rest.dropWhile Line.isBlank).head?, l.indent s.tab = 0

/-- The lines do not go on a list before them, but for blank ones at their start. -/
structure EndsList (ordered : Bool) (symbol : Char) (rest : List Line) : Prop extends EndsItem s rest where
  marker : ∀ l ∈ (rest.dropWhile Line.isBlank).head?, ∀ m, Marker.read? s.tab l = some m →
    ¬(m.ordered = ordered ∧ m.symbol = symbol)

section

variable {s} {loose : Bool} {blanks : List Line} (hblanks : blanks.map Line.text = if loose then [[]] else []) {l : Line}
  (rest : List Line)
include hblanks

/-- Between lines of a loose row stands a blank one, and between others none. -/
theorem gap_cases : loose = false ∧ blanks = [] ∨ loose = true ∧ ∃ x, x.isBlank = true ∧ blanks = [x] := by
  cases loose with
  | false => exact .inl ⟨rfl, List.map_eq_nil_iff.1 hblanks⟩
  | true =>
    obtain ⟨x, rfl, hx⟩ := List.map_eq_singleton_iff.1 hblanks
    exact .inr ⟨rfl, x, by rw [Line.isBlank, hx]; rfl, rfl⟩

theorem head?_gap {P : Line → Prop} (hblank : ∀ x, x.isBlank = true → P x) (hl : loose = false → P l) :
    ∀ x ∈ (blanks ++ l :: rest).head?, P x := by
  rcases gap_cases hblanks with ⟨htight, rfl⟩ | ⟨-, x, hx, rfl⟩
  · rintro _ ⟨⟩
    exact hl htight
  · rintro _ ⟨⟩
    exact hblank x hx

variable (hl : l.isBlank = false)
include hl

theorem takeWhile_gap : (blanks ++ l :: rest).takeWhile Line.isBlank = blanks := by
  rcases gap_cases hblanks with ⟨-, rfl⟩ | ⟨-, x, hx, rfl⟩
  · simp [hl]
  · simp [hl, hx]

theorem dropWhile_gap : (blanks ++ l :: rest).dropWhile Line.isBlank = l :: rest := by
  rcases gap_cases hblanks with ⟨-, rfl⟩ | ⟨-, x, hx, rfl⟩
  · simp [hl]
  · simp [hl, hx]

theorem endsItem_gap (hlazy : loose = false → ∀ previous fence, s.isLazy previous fence l = false)
    (hindent : l.indent s.tab = 0) : s.EndsItem (blanks ++ l :: rest) where
  lazy := head?_gap hblanks rest (fun _ => .inl) fun htight => .inr (hlazy htight)
  indent := by
    rw [dropWhile_gap hblanks rest hl]
    rintro _ ⟨⟩
    exact hindent

end

/-- Lines are cut off a row as one chunk of a kind, which leaves some of the lines after them. -/
def Cuts (limit : Value) (ls rest left : List Line) (P : Chunk → Prop) : Prop :=
  ∀ gap, ∃ chunk, P chunk ∧ s.segments limit gap (ls ++ rest) = ⟨gap, chunk⟩ :: s.segments limit false left

variable {s} {limit : Value} {l : Line} {ls rest : List Line}

theorem cuts_of_chunk {left : List Line} {P : Chunk → Prop} (hl : l.isBlank = false) {chunk : Chunk} {taken : Nat}
    (hchunk : s.chunk limit l (ls ++ rest) = (chunk, taken)) (hleft : (ls ++ rest).drop taken = left) (hP : P chunk) :
    s.Cuts limit (l :: ls) rest left P := by
  intro gap
  refine ⟨chunk, hP, ?_⟩
  rw [List.cons_append, segments, if_neg (by rw [hl]; decide), hchunk]
  dsimp only
  rw [hleft]

theorem Cuts.mono {left : List Line} {P Q : Chunk → Prop} (h : s.Cuts limit ls rest left P) (hPQ : ∀ c, P c → Q c) :
    s.Cuts limit ls rest left Q := by
  intro gap
  obtain ⟨chunk, hP, hsegments⟩ := h gap
  exact ⟨chunk, hPQ chunk hP, hsegments⟩

/-! ### Leaves -/

/-- Quiet lines are a paragraph up to what ends it. -/
theorem cuts_paragraph (hne : ls ≠ []) (h : ∀ x ∈ ls, IsQuiet x.text) (hrest : s.EndsParagraph rest) :
    s.Cuts limit ls rest rest fun c => ∃ span notes, c = .paragraph span (paragraphLines ls) notes := by
  obtain ⟨l, ls, rfl⟩ := List.exists_cons_of_ne_nil hne
  obtain ⟨hl, hls⟩ := List.forall_mem_cons.1 h
  have htake : (ls ++ rest).takeWhile s.goesOn = ls := by
    rw [List.takeWhile_append_of_pos fun x hx => (hls x hx).goesOn s]
    cases rest with
    | nil => exact List.append_nil ls
    | cons x rest => rw [List.takeWhile_cons_of_neg (by simp [(hrest x rfl).1]), List.append_nil]
  have hchunk : ∃ span notes, s.chunk limit l (ls ++ rest) =
      (.paragraph span (paragraphLines (l :: ls)) notes, ls.length) := by
    rw [hl.chunk_eq]
    unfold paragraph
    dsimp only
    rw [htake, List.drop_left]
    cases rest with
    | nil => exact ⟨_, _, rfl⟩
    | cons x rest =>
      rw [List.head?_cons]
      dsimp only
      rw [(hrest x rfl).2]
      exact ⟨_, _, rfl⟩
  obtain ⟨span, notes, hchunk⟩ := hchunk
  exact cuts_of_chunk hl.not_blank hchunk List.drop_left ⟨span, notes, rfl⟩

theorem cuts_underlined (hne : ls ≠ []) (h : ∀ x ∈ ls, IsQuiet x.text) {under : Line} {depth : Nat}
    (hunder : s.underline? under = some depth) : s.Cuts limit (ls ++ [under]) rest rest fun c =>
      ∃ span notes, c = .heading span depth (paragraphLines ls) notes := by
  obtain ⟨l, ls, rfl⟩ := List.exists_cons_of_ne_nil hne
  have hchunk := s.chunk_underlined limit h hunder rest
  rw [List.append_cons] at hchunk
  refine cuts_of_chunk (h l (.head _)).not_blank hchunk ?_ ⟨_, _, rfl⟩
  exact List.drop_left' (by simp)

theorem cuts_marked {depth : Nat} (hone : 1 ≤ depth) (hsix : depth ≤ 6) {content : List Char}
    (hl : l.text = List.replicate depth '#' ++ content) (hcontent : endsOrGap content = true) :
    s.Cuts limit [l] rest rest (· = markedHeading depth l) := by
  obtain ⟨n, rfl⟩ := Nat.exists_eq_add_of_le' hone
  have hhash : isBlank '#' = false := by decide
  exact cuts_of_chunk (Line.isBlank_of_head hl hhash) (s.chunk_marked limit hone hsix hl hcontent rest).1 rfl rfl

/-- Three rule marks are a rule, and interrupt paragraphs. -/
theorem chunk_rule (limit : Value) (mark : RuleMark) (hl : l.text = List.replicate 3 mark.char) (ls : List Line) :
    s.chunk limit l ls = (.rule ⟨l.trimStart.offset, l.trimStart.contentStop⟩, 0) ∧ s.interrupts l = true := by
  have hblank : isBlank mark.char = false := by cases mark <;> decide
  have hrule : isRule l.text = true := by
    rw [hl]
    cases mark <;> decide
  have hsigns : Fence.opening? l.text = none ∧ headingDepth? l.text = none := by
    rw [hl]
    cases mark <;> decide
  have hindent := Line.indent_of_head hl hblank s.tab
  have htrim := Line.trimStart_of_head hl hblank
  constructor
  · unfold chunk
    dsimp only
    rw [hindent, htrim, if_neg (by decide), hsigns.1]
    dsimp only
    rw [hsigns.2]
    dsimp only
    rw [hrule, if_pos rfl]
  · unfold interrupts
    dsimp only
    rw [hindent, htrim, if_neg (by decide), hrule, Bool.or_true, if_pos rfl]

theorem cuts_rule (mark : RuleMark) (hl : l.text = List.replicate 3 mark.char) :
    s.Cuts limit [l] rest rest fun c => ∃ span, c = .rule span := by
  have hblank : isBlank mark.char = false := by cases mark <;> decide
  exact cuts_of_chunk (Line.isBlank_of_head hl hblank) (s.chunk_rule limit mark hl rest).1 rfl ⟨_, rfl⟩

/-- A fence takes the lines up to the one that closes it. -/
theorem cuts_code {mark : Char} {info value : List Char} (hmark : mark = '\x60' ∨ mark = '~')
    (hopen : mark = '\x60' → '\x60' ∉ info) (hcloses : info.head? ≠ some mark)
    (hls : ls.map Line.text = codeLines mark info value) : s.Cuts limit ls rest rest fun c => ∃ span notes,
      c = .code span value (codeFence mark info value).words.1 (codeFence mark info value).words.2 notes := by
  obtain ⟨-, hlonger⟩ := fenceSize_bounds mark value
  have hblank := isBlank_of_fence hmark
  obtain ⟨n, hn⟩ := exists_fenceOf mark value
  obtain ⟨l, more, rfl, hl, hmore⟩ := List.map_eq_cons_iff.1 hls
  obtain ⟨body, last, rfl, hbody, hlast⟩ := List.map_eq_append_iff.1 hmore
  obtain ⟨x, rfl, hx⟩ := List.map_eq_singleton_iff.1 hlast
  have hfence : Fence.opening? l.text = some (codeFence mark info value) := by
    rw [hl]
    exact opening?_codeFence hmark hopen
  have hhead : l.text = mark :: (List.replicate n mark ++ info) := by rw [hl, hn]; rfl
  have hindent := Line.indent_of_head hhead hblank s.tab
  have hinner : ∀ y ∈ body, (codeFence mark info value).closedBy y.trimStart.text = false := fun y hy => by
    have hline : y.text ∈ valueLines value := by
      rw [← hbody]
      exact List.mem_map_of_mem hy
    rw [Line.trimStart_text]
    exact Fence.closedBy_field (mem_fields_of_valueLines hline) (Nat.lt_add_right _ hlonger)
  have hends : (decide (x.indent s.tab < 4) && (codeFence mark info value).closedBy x.trimStart.text) = true := by
    rw [Line.indent_of_head (hx.trans hn) hblank, Line.trimStart_text, hx,
      (closedBy_codeFence hmark info value).2 hcloses]
    decide
  have htake : (body ++ x :: rest).takeWhile
      (fun y => !(y.indent s.tab < 4 && (codeFence mark info value).closedBy y.trimStart.text)) = body := by
    rw [List.takeWhile_append_of_pos fun y hy => by simp [hinner y hy],
      List.takeWhile_cons_of_neg (by simpa using hends),
      List.append_nil]
  have hvalue : join ['\n'] (body.map fun y => (y.dropColumns s.tab (l.indent s.tab)).text) = value := by
    rw [hindent, ← join_valueLines value, ← hbody]
    exact congrArg _ (List.map_congr_left fun y _ => Line.text_dropColumns_zero s.tab y)
  have hchunk : ∃ span notes, s.chunk limit l ((body ++ [x]) ++ rest) =
      (.code span value (codeFence mark info value).words.1 (codeFence mark info value).words.2 notes,
        (body ++ [x]).length) := by
    unfold chunk
    dsimp only
    rw [hindent, Line.trimStart_of_head hhead hblank, if_neg (by decide), hfence]
    dsimp only
    unfold fencedCode
    dsimp only
    rw [← List.append_cons, htake, hvalue, List.drop_left]
    exact ⟨_, _, by rw [List.length_append]; rfl⟩
  obtain ⟨span, notes, hchunk⟩ := hchunk
  exact cuts_of_chunk (Line.isBlank_of_head hhead hblank) hchunk List.drop_left ⟨span, notes, rfl⟩

/-! ### Quotes -/

/-- A line with a quote mark interrupts paragraphs where there may be quotes. -/
theorem interrupts_quote (hs : s.containers = true) {cs : List Char} (hl : l.text = '>' :: cs) :
    s.interrupts l = true := by
  have hquote : isBlank '>' = false := by decide
  unfold interrupts
  dsimp only
  rw [Line.indent_of_head hl hquote, Line.trimStart_of_head hl hquote, if_neg (by decide), hl,
    opening?_eq_none (by decide) (by decide), hs]
  simp

/-- Lines with quote marks are a quote of what they say without, up to a line without one. -/
theorem cuts_quote (hs : s.containers = true) {lines : List (List Char)} (hne : lines ≠ [])
    (hls : ls.map Line.text = lines.map quoteLine) (hrest : s.EndsQuote rest) :
    s.Cuts limit ls rest rest fun c => ∃ span inner, c = .quote span inner ∧ inner.map Line.text = lines := by
  obtain ⟨line, lines, rfl⟩ := List.exists_cons_of_ne_nil hne
  have hinner := s.text_quotedLines hls
  have hquoted : s.quotedLines (ls ++ rest) = s.quotedLines ls := by
    clear hinner hne
    induction ls generalizing line lines with
    | nil => cases hls
    | cons l ls ih =>
      obtain ⟨hl, hls⟩ := List.cons.inj hls
      obtain ⟨inner, hinner, -⟩ := s.quoted?_quoteLine hl
      rw [List.cons_append, quotedLines, quotedLines, hinner]
      dsimp only
      cases lines with
      | nil =>
        obtain rfl := List.map_eq_nil_iff.1 hls
        cases rest with
        | nil => rfl
        | cons x rest =>
          have hnone : s.quotedLines (x :: rest) = [] := by rw [quotedLines, hrest x rfl]
          rw [List.nil_append, hnone]
          rfl
      | cons line lines => rw [ih line lines hls]
  have hlength := congrArg List.length hinner
  have hsame := congrArg List.length hls
  simp only [List.length_map] at hlength hsame
  obtain ⟨l, ls, rfl, hl, -⟩ := List.map_eq_cons_iff.1 hls
  have hquote : isBlank '>' = false := by decide
  obtain ⟨more, hhead⟩ : ∃ more, l.text = '>' :: more := by
    rw [hl, quoteLine]
    split <;> exact ⟨_, rfl⟩
  have hchunk : s.chunk limit l (ls ++ rest) = s.quote l (ls ++ rest) := by
    unfold chunk
    dsimp only
    rw [Line.indent_of_head hhead hquote, Line.trimStart_of_head hhead hquote, if_neg (by decide), hhead,
      opening?_eq_none (by decide) (by decide)]
    dsimp only
    rw [headingDepth?_eq_none (by decide)]
    dsimp only
    rw [isRule_eq_false (by decide) (by decide) (by decide), if_neg (by decide), hs, if_pos (by rfl)]
  refine cuts_of_chunk (Line.isBlank_of_head hhead hquote) (hchunk.trans (by rw [quote])) ?_ ⟨_, _, rfl, ?_⟩
  · rw [← List.cons_append, hquoted, hlength, ← hsame]
    exact List.drop_left' (by simp)
  · rw [← List.cons_append, hquoted]
    exact hinner

end Setting

end MarkdownTree.Scan
