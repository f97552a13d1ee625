import MarkdownTree.Proofs.Container
import MarkdownTree.Proofs.Escaped
import MarkdownTree.Proofs.Quiet

/-!
# Lines of prose

A line that opens nothing but a paragraph does so wherever it stands, and goes on a paragraph (`IsProse`).  So rows of
such lines are one paragraph, or one heading with an underline after them (`segments_prose`, `segments_underlined`).
The lines of any text become such lines when they are escaped (`isProse_escapeLine`).
-/

namespace MarkdownTree.Scan

open Text Print

/-- The marks that open blocks and task boxes. -/
def openingMarks : List Char :=
  ['#', '-', '*', '_', '\x60', '~', '>', '+', '=', '[']

/-- A line that opens nothing but a paragraph, and is of no use to any other block. -/
structure IsProse (line : List Char) : Prop where
  head : ∃ c cs, line = c :: cs ∧ isBlank c = false ∧ c ∉ openingMarks
  marker : marker? line = none
  last : ∀ c ∈ line.getLast?, isBlank c = false
  newline : '\n' ∉ line

/-- A line that is not empty and has no blanks at its ends. -/
def IsTrimmed (line : List Char) : Prop :=
  (∃ c ∈ line.head?, isBlank c = false) ∧ ∀ c ∈ line.getLast?, isBlank c = false

instance : DecidablePred IsTrimmed := fun line =>
  decidable_of_iff (line.head?.any (!isBlank ·) = true ∧ line.getLast?.all (!isBlank ·) = true) 
    (by simp [IsTrimmed, Option.any_eq_true, Option.all_eq_true])

theorem isTrimmed_iff {line : List Char} : IsTrimmed line ↔ line ≠ [] ∧ trim line = line := by
  constructor
  · rintro ⟨⟨c, hc, hblank⟩, hlast⟩
    refine ⟨List.ne_nil_of_mem (List.mem_of_head? hc), trim_eq_self (fun d hd => ?_) hlast⟩
    rwa [← Option.mem_unique hc hd]
  · rintro ⟨hne, htrim⟩
    obtain ⟨c, cs, rfl⟩ := List.exists_cons_of_ne_nil hne
    have hhead : (trim (c :: cs)).head? = some c := by rw [htrim]; rfl
    refine ⟨⟨c, rfl, head?_trim hhead⟩, fun d hd => ?_⟩
    rw [← htrim, trim] at hd
    exact getLast?_dropEndWhile hd

/-! ### Escaped lines -/

/-- A line as it is written at the start of a line of text. -/
def escapeLine (atx : Bool) (line : List Char) : List Char :=
  escapeLineStart (escapeWhere (isSpecial atx) line)

theorem escapeLines_eq_map (atx : Bool) (lines : List (List Char)) :
    escapeLines atx true lines = lines.map (escapeLine atx) := by
  induction lines with
  | nil => rfl
  | cons line lines ih => rw [escapeLines, ih, List.map_cons, if_pos rfl, escapeLine]

theorem Written.newline_notMem {atx : Bool} {cs value : List Char} (h : Written atx cs value)
    (hvalue : '\n' ∉ value) : '\n' ∉ cs := by
  induction h with
  | nil => exact hvalue
  | plain _ _ _ ih =>
    simp only [List.mem_cons, not_or] at hvalue ⊢
    exact ⟨hvalue.1, ih hvalue.2⟩
  | escaped _ _ ih =>
    simp only [List.mem_cons, not_or] at hvalue ⊢
    exact ⟨by decide, hvalue.1, ih hvalue.2⟩

private theorem marker?_eq_none {c : Char} {cs : List Char} (hc : c ∉ openingMarks)
    (h : ∀ d rest, (c :: cs).drop ((c :: cs).takeWhile isDigit).length = d :: rest →
      ¬(1 ≤ ((c :: cs).takeWhile isDigit).length ∧ ((c :: cs).takeWhile isDigit).length ≤ 9 ∧ (d = '.' ∨ d = ')'))) :
    marker? (c :: cs) = none := by
  unfold marker?
  dsimp only
  rw [if_neg]
  · split
    · rename_i d rest hdrop
      rw [if_neg fun hcond => h d rest hdrop ⟨hcond.1, hcond.2.1, hcond.2.2.1⟩]
    · rfl
  · rintro ⟨rfl | rfl | rfl, -⟩ <;> exact hc (by decide)

private theorem head_escapeWhere (atx : Bool) {c : Char} (cs : List Char) (hc : isBlank c = false) :
    ∃ d ds, escapeWhere (isSpecial atx) (c :: cs) = d :: ds ∧ isBlank d = false ∧
      (d ∈ openingMarks → isLineMark d = true) := by
  rw [escapeWhere, List.flatMap_cons]
  split
  · exact ⟨'\\', _, rfl, by decide, fun h => absurd h (by decide)⟩
  · rename_i hspecial
    refine ⟨c, _, rfl, hc, fun h => ?_⟩
    simp only [openingMarks, List.mem_cons, List.not_mem_nil, or_false] at h
    rcases h with rfl | rfl | rfl | rfl | rfl | rfl | rfl | rfl | rfl | rfl <;>
      first | rfl | exact absurd rfl hspecial

private theorem escapeLineStart_opens {c : Char} (cs : List Char) (hc : isBlank c = false)
    (hmark : c ∈ openingMarks → isLineMark c = true) :
    (∃ d ds, escapeLineStart (c :: cs) = d :: ds ∧ isBlank d = false ∧ d ∉ openingMarks) ∧
      marker? (escapeLineStart (c :: cs)) = none := by
  unfold escapeLineStart
  dsimp only
  split
  · -- A mark that is escaped is no mark, and no number either.
    refine ⟨⟨'\\', _, rfl, by decide, by decide⟩, marker?_eq_none (by decide) fun d rest _ hcond => ?_⟩
    rw [List.takeWhile_cons, if_neg (by decide)] at hcond
    exact absurd hcond.1 (by decide)
  · rename_i hline
    have hopening : c ∉ openingMarks := fun h => hline (hmark h)
    split
    · rename_i d rest hdrop
      split
      · rename_i hcond
        have hdigits : ∀ x ∈ (c :: cs).takeWhile isDigit, isDigit x = true := fun x hx => List.mem_takeWhile_imp hx
        have htake : ((c :: cs).takeWhile isDigit ++ '\\' :: d :: rest).takeWhile isDigit =
            (c :: cs).takeWhile isDigit := by
          have hslash : ('\\' :: d :: rest).takeWhile isDigit = [] := List.takeWhile_cons_of_neg (by decide)
          rw [List.takeWhile_append_of_pos hdigits, hslash, List.append_nil]
        obtain ⟨ds, hds⟩ : ∃ ds, (c :: cs).takeWhile isDigit = c :: ds := by
          rw [List.takeWhile_cons] at hcond ⊢
          split
          · exact ⟨_, rfl⟩
          · rename_i hdigit
            rw [if_neg hdigit] at hcond
            exact absurd hcond.1 (by decide)
        rw [hds] at htake ⊢
        rw [List.cons_append] at htake ⊢
        refine ⟨⟨c, _, rfl, hc, hopening⟩, marker?_eq_none hopening fun e more hmore hnext => ?_⟩
        rw [htake, ← List.cons_append, List.drop_left] at hmore
        cases hmore
        exact absurd hnext.2.2 (by decide)
      · rename_i hcond
        refine ⟨⟨c, cs, rfl, hc, hopening⟩, marker?_eq_none hopening fun e more hmore => ?_⟩
        rw [hdrop] at hmore
        cases hmore
        exact hcond
    · rename_i hdrop
      refine ⟨⟨c, cs, rfl, hc, hopening⟩, marker?_eq_none hopening fun e more hmore => ?_⟩
      rw [hdrop] at hmore
      cases hmore

theorem isProse_escapeLine (atx : Bool) {line : List Char} (hline : IsTrimmed line) (hnewline : '\n' ∉ line) :
    IsProse (escapeLine atx line) := by
  have hwritten : Written atx (escapeLine atx line) line := written_escapeLineStart (written_escapeWhere atx hnewline)
  obtain ⟨⟨c, hhead, hc⟩, hlast⟩ := hline
  obtain ⟨cs, rfl⟩ := List.head?_eq_some_iff.1 hhead
  obtain ⟨d, ds, hescaped, hd, hmark⟩ := head_escapeWhere atx cs hc
  obtain ⟨hopens, hmarker⟩ := escapeLineStart_opens ds hd hmark
  rw [← hescaped] at hopens hmarker
  exact ⟨hopens, hmarker, hwritten.getLast?_eq ▸ hlast, hwritten.newline_notMem hnewline⟩

/-! ### Marked headings -/

/-- Where the text of a marked heading ends with a number sign, there is a backslash before that. -/
private theorem Written.escaped_hash {cs value : List Char} (h : Written true cs value) {init : List Char}
    (hcs : cs = init ++ ['#']) : init.getLast? = some '\\' := by
  induction h generalizing init with
  | nil => simp at hcs
  | plain hc _ _ ih =>
    cases init with
    | nil =>
      cases hcs
      exact absurd hc (by decide)
    | cons d init =>
      obtain ⟨rfl, htail⟩ := List.cons.inj hcs
      rw [List.getLast?_cons, ih htail]
      rfl
  | escaped _ _ ih =>
    cases init with
    | nil => cases hcs
    | cons d init =>
      obtain ⟨rfl, htail⟩ := List.cons.inj hcs
      cases init with
      | nil => rfl
      | cons e init =>
        obtain ⟨rfl, hrest⟩ := List.cons.inj htail
        rw [List.getLast?_cons, List.getLast?_cons, ih hrest]
        rfl

private theorem dropEndWhile_isGap_eq {cs : List Char} (h : ∀ c ∈ cs.getLast?, isBlank c = false) :
    dropEndWhile isGap cs = cs :=
  dropEndWhile_eq_self fun c hc => Bool.eq_false_iff.2 fun hgap => by
    have := h c hc
    rw [isBlank_of_isGap hgap] at this
    cases this

/-- A heading keeps a number sign at its end that stands behind a backslash. -/
theorem headingText_eq_self {cs : List Char} (hhash : ∀ init, cs = init ++ ['#'] → init.getLast? = some '\\')
    (hlast : ∀ c ∈ cs.getLast?, isBlank c = false) : headingText cs = cs := by
  unfold headingText
  dsimp only
  rw [dropEndWhile_isGap_eq hlast]
  split
  · rename_i hcond
    exfalso
    cases cs using List.reverseRecOn with
    | nil => exact absurd hcond.1 (by decide)
    | append_singleton init c =>
      rw [dropEndWhile_concat] at hcond
      split at hcond
      · -- What stands before the number sign is a backslash, so nothing more is dropped.
        rename_i hc
        rw [beq_iff_eq] at hc
        subst hc
        have hslash := hhash init rfl
        have hkept : dropEndWhile (· == '#') init = init := dropEndWhile_eq_self fun c hc => by
          rw [hslash] at hc
          cases hc
          rfl
        rw [hkept, hslash] at hcond
        rcases hcond.2 with hnil | hgap
        · rw [hnil] at hslash
          cases hslash
        · exact absurd hgap (by decide)
      · exact absurd hcond.1 (lt_irrefl _)
  · exact dropEndWhile_eq_self hlast

theorem headingText_written {cs value : List Char} (h : Written true cs value)
    (hlast : ∀ c ∈ cs.getLast?, isBlank c = false) : headingText cs = cs :=
  headingText_eq_self (fun _ => h.escaped_hash) hlast

theorem headingText_closed {cs : List Char} (hlast : ∀ c ∈ cs.getLast?, isBlank c = false) {depth : Nat}
    (hdepth : 0 < depth) : headingText (cs ++ ' ' :: List.replicate depth '#') = cs := by
  have hend : (cs ++ ' ' :: List.replicate depth '#').getLast? = some '#' := by
    rw [List.getLast?_append, List.getLast?_cons, List.getLast?_replicate, if_neg (by omega)]
    rfl
  have hrest : dropEndWhile (· == '#') (cs ++ ' ' :: List.replicate depth '#') = cs ++ [' '] := by
    rw [← List.singleton_append, ← List.append_assoc,
      dropEndWhile_append_of_pos _ (fun c hc => by rw [List.eq_of_mem_replicate hc]; rfl), dropEndWhile_concat]
    rfl
  unfold headingText
  dsimp only
  rw [dropEndWhile_isGap_eq (by rw [hend]; rintro c ⟨⟩; decide), hrest, if_pos]
  · rw [dropEndWhile_concat, if_pos (by decide), dropEndWhile_isGap_eq hlast]
  · refine ⟨by simpa using hdepth, .inr ?_⟩
    rw [List.getLast?_concat]
    rfl

/-! ### Rows of prose -/

namespace IsProse

variable {line : List Char} (h : IsProse line)
include h

theorem ne_nil : line ≠ [] := by
  obtain ⟨c, cs, rfl, -⟩ := h.head
  simp

private theorem trimEnd_eq : Text.trimEnd line = line :=
  dropEndWhile_eq_self h.last

theorem isQuiet : IsQuiet line := by
  obtain ⟨c, cs, rfl, hblank, hc⟩ := h.head
  simp only [openingMarks, List.mem_cons, List.not_mem_nil, or_false, not_or] at hc
  obtain ⟨hhash, hhyphen, hstar, hunder, htick, htilde, hquote, -, hequals, -⟩ := hc
  exact ⟨⟨c, rfl, hblank⟩, opening?_eq_none htick htilde, headingDepth?_eq_none hhash,
    isRule_eq_false hhyphen hstar hunder, underlineDepth?_eq_none hequals hhyphen, by simpa using hquote, h.marker⟩

end IsProse

namespace Setting

private theorem text_paragraphLines {ls : List Line} {lines : List (List Char)} (h : ls.map Line.text = lines)
    (hprose : ∀ line ∈ lines, IsProse line) : (paragraphLines ls).map Line.text = lines := by
  subst h
  fun_induction paragraphLines ls with
  | case1 => rfl
  | case2 l =>
    have hl : IsProse l.text := hprose l.text (by simp)
    simp only [List.map_cons, List.map_nil, hl.isQuiet.trimStart_eq, Line.trimEnd, hl.trimEnd_eq]
  | case3 l ls hne ih =>
    obtain ⟨hl, hls⟩ := List.forall_mem_cons.1 hprose
    rw [List.map_cons, List.map_cons, ih hls, hl.isQuiet.trimStart_eq]

variable (s : Setting) {l : Line} {ls : List Line} {lines : List (List Char)}
  (hls : (l :: ls).map Line.text = lines) (hprose : ∀ line ∈ lines, IsProse line)
include hls hprose

private theorem takeWhile_goesOn : ls.takeWhile s.goesOn = ls := by
  refine List.takeWhile_eq_self_iff.2 fun x hx => ?_
  exact (hprose x.text (hls ▸ List.mem_map_of_mem (.tail _ hx))).isQuiet.goesOn s

theorem segments_prose (limit : Value) (gap : Bool) : ∃ span inner notes,
    s.segments limit gap (l :: ls) = [⟨gap, .paragraph span inner notes⟩] ∧ inner.map Line.text = lines := by
  have hfirst : IsProse l.text := hprose l.text (by rw [← hls]; exact .head _)
  have htexts := text_paragraphLines hls hprose
  rw [segments, if_neg (by rw [hfirst.isQuiet.not_blank]; decide), hfirst.isQuiet.chunk_eq]
  unfold paragraph
  dsimp only
  rw [s.takeWhile_goesOn hls hprose, List.drop_length]
  dsimp only [List.head?_nil]
  rw [List.drop_length, segments]
  exact ⟨_, _, _, rfl, htexts⟩

theorem segments_underlined (limit : Value) (gap : Bool) {under : Line} {mark : Char} (hmark : mark = '=' ∨ mark = '-')
    (hunder : under.text = List.replicate 3 mark) : ∃ span inner notes,
    s.segments limit gap (l :: (ls ++ [under])) = [⟨gap, .heading span (if mark = '=' then 1 else 2) inner notes⟩] ∧
      inner.map Line.text = lines := by
  have hfirst : IsProse l.text := hprose l.text (by rw [← hls]; exact .head _)
  have htexts := text_paragraphLines hls hprose
  have hdepth := s.underline?_marks hmark hunder
  have hquiet : ∀ x ∈ l :: ls, IsQuiet x.text := fun x hx => (hprose x.text (hls ▸ List.mem_map_of_mem hx)).isQuiet
  rw [segments, if_neg (by rw [hfirst.isQuiet.not_blank]; decide), s.chunk_underlined limit hquiet hdepth []]
  dsimp only
  rw [List.drop_of_length_le (by simp), segments]
  exact ⟨_, _, _, rfl, htexts⟩

omit hls hprose in
/-- A heading mark before a line of prose makes a heading of it, with more marks at its end or without. -/
theorem segments_marked (limit : Value) (gap : Bool) {depth : Nat} (hone : 1 ≤ depth) (hsix : depth ≤ 6)
    {content closing : List Char} (hcontent : IsProse content) (hclosing : headingText (content ++ closing) = content)
    (hl : l.text = List.replicate depth '#' ++ ' ' :: (content ++ closing)) : ∃ span inner,
      s.segments limit gap [l] = [⟨gap, .heading span depth [inner] []⟩] ∧ inner.text = content := by
  have hhash : isBlank '#' = false := by decide
  have hhead : l.text = '#' :: (List.replicate (depth - 1) '#' ++ ' ' :: (content ++ closing)) := by
    obtain ⟨n, rfl⟩ := Nat.exists_eq_add_of_le' hone
    exact hl
  have hrest : (l.drop depth).trimStart.text = content ++ closing := by
    obtain ⟨c, cs, rfl, hc, -⟩ := hcontent.head
    rw [Line.trimStart, Line.drop, Line.drop, hl]
    dsimp only
    rw [List.drop_left' List.length_replicate, List.takeWhile_cons_of_pos (by decide), List.cons_append,
      List.takeWhile_cons_of_neg (by simp [hc])]
    rfl
  have hchunk := (s.chunk_marked limit hone hsix hl rfl []).1
  have hsegments : s.segments limit gap [l] = [⟨gap, markedHeading depth l⟩] := by
    rw [segments, if_neg (by rw [Line.isBlank_of_head hhead hhash]; decide), hchunk]
    dsimp only
    rw [List.drop_nil, segments]
  refine ⟨_, _, hsegments, ?_⟩
  dsimp only
  rw [hrest]
  exact hclosing

end Setting

end MarkdownTree.Scan
