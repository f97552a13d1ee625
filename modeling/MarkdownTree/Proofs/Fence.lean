import MarkdownTree.Proofs.CodeSpan
import MarkdownTree.Proofs.Gap
import MarkdownTree.Proofs.Prose

/-!
# Fences

A fence is a run of marks, and is closed by a run that is as long (`Fence.opening?_run`, `Fence.closedBy_run`); no line of
a text whose runs are all shorter closes it (`Fence.closedBy_field`).  What stands behind it says nothing, or a word that
is the language, and details behind that (`Fence.isWords`), and the text that is written for these says them again
(`IsWords.words_eq`).

A fence and the lines up to the one that closes it are one code block (`Setting.segments_fencedCode`).
-/

namespace MarkdownTree.Scan

open Text Print

namespace Fence

theorem opening?_run {mark : Char} (hmark : mark = '\x60' ∨ mark = '~') {n : Nat} (hn : 3 ≤ n) {rest : List Char}
    (hrest : rest.head? ≠ some mark) (hopen : mark = '\x60' → '\x60' ∉ rest) :
    opening? (List.replicate n mark ++ rest) = some ⟨mark, n, rest⟩ := by
  obtain ⟨m, rfl⟩ := Nat.exists_eq_add_of_le' (by omega : 1 ≤ n)
  have hread : read? (List.replicate (m + 1) mark ++ rest) = some ⟨mark, m + 1, rest⟩ := by
    rw [List.replicate_succ, List.cons_append, read?, takeWhile_run m hrest, List.length_replicate,
      if_pos ⟨hmark, hn⟩, ← List.cons_append, ← List.replicate_succ, List.drop_left' List.length_replicate]
  rw [opening?, hread, Option.filter_some, if_pos]
  by_cases htick : mark = '\x60'
  · simp [canOpen, htick, hopen htick]
  · simp [canOpen, htick]

theorem closedBy_run (f : Fence) (n : Nat) : f.closedBy (List.replicate n f.mark) = decide (f.size ≤ n) := by
  have hrun : (List.replicate n f.mark).takeWhile (· == f.mark) = List.replicate n f.mark := by simp
  rw [closedBy, hrun, List.length_replicate, List.drop_of_length_le (by simp), List.all_nil, Bool.and_true]

/-- A line of a text all of whose runs are shorter than the fence does not close it. -/
theorem closedBy_field {f : Fence} {line value : List Char} (hline : line ∈ fields '\n' value)
    (hsize : Print.longestRun f.mark 0 0 value < f.size) : f.closedBy (trimStart line) = false := by
  have htrim : trimStart line <:+: value := (List.dropWhile_suffix _).isInfix.trans (infix_of_mem_fields hline)
  have hrun := le_longestRun ((prefix_run f.mark (trimStart line)).isInfix.trans htrim)
  rw [closedBy, Bool.and_eq_false_iff]
  left
  exact decide_eq_false (by omega)

private theorem info_suffix {line : List Char} {fence : Fence} (h : opening? line = some fence) :
    fence.info <:+ line := by
  obtain ⟨hread, -⟩ := Option.filter_eq_some_iff.1 h
  unfold read? at hread
  split at hread
  · cases hread
  · dsimp only at hread
    split at hread
    · cases hread
      exact List.drop_suffix _ _
    · cases hread

/-- The language and the details that the text after a fence says. -/
def words (f : Fence) : Option (List Char) × Option (List Char) :=
  let info := trim f.info
  let lang := info.takeWhile (· != ' ')
  (Setting.nonEmpty lang, Setting.nonEmpty (trim (info.drop (lang.length + 1))))

end Fence

/-! ### What fences say -/

/-- What fences say: nothing, a word, or a word and more. -/
inductive IsWords : Option (List Char) → Option (List Char) → Prop
  | nothing : IsWords none none
  | word {lang : List Char} (hlang : IsTrimmed lang) (hspace : ' ' ∉ lang) : IsWords (some lang) none
  | more {lang details : List Char} (hlang : ∃ c ∈ lang.head?, isBlank c = false) (hspace : ' ' ∉ lang)
    (hdetails : IsTrimmed details) : IsWords (some lang) (some details)

/-- The text that says a language and details after a fence. -/
def infoText (lang details : Option (List Char)) : List Char :=
  lang.getD [] ++ (details.map (' ' :: ·)).getD []

private theorem eq_of_mem_nonEmpty {cs ds : List Char} (h : ds ∈ Setting.nonEmpty cs) : ds = cs := by
  rw [Setting.nonEmpty] at h
  split at h
  · cases h
  · exact (Option.some.inj h).symm

private theorem nonEmpty_of_ne {cs : List Char} (h : cs ≠ []) : Setting.nonEmpty cs = some cs := by
  rw [Setting.nonEmpty, if_neg (by simpa using h)]

/-- What a fence says is among the text after it. -/
private theorem Fence.notMem_infoText {f : Fence} {c : Char} (hspace : c ≠ ' ') (hc : c ∉ f.info) :
    c ∉ infoText f.words.1 f.words.2 := by
  have htrim : c ∉ trim f.info := fun h => hc ((infix_trim f.info).subset h)
  rw [infoText, List.mem_append, not_or]
  constructor
  · cases hlang : f.words.1 with
    | none => exact List.not_mem_nil
    | some lang =>
      rw [eq_of_mem_nonEmpty hlang]
      exact fun h => htrim ((List.takeWhile_sublist _).subset h)
  · cases hdetails : f.words.2 with
    | none => exact List.not_mem_nil
    | some details =>
      rw [eq_of_mem_nonEmpty hdetails]
      intro h
      rcases List.mem_cons.1 h with h | h
      · exact hspace h
      · exact htrim ((List.drop_sublist _ _).subset ((infix_trim _).subset h))

private theorem isTrimmed_split {lang more : List Char} (h : IsTrimmed (lang ++ ' ' :: more)) :
    (∃ c ∈ lang.head?, isBlank c = false) ∧ more.all isBlank = false := by
  obtain ⟨⟨c, hc, hblank⟩, hlast⟩ := h
  constructor
  · cases lang with
    | nil =>
      cases hc
      cases hblank
    | cons d lang => exact ⟨c, hc, hblank⟩
  · rw [List.getLast?_append_of_ne_nil _ (List.cons_ne_nil _ _)] at hlast
    cases hend : more.getLast? with
    | none =>
      rw [List.getLast?_eq_none_iff.1 hend] at hlast
      cases hlast ' ' rfl
    | some x =>
      have hx := hlast x (by rw [List.getLast?_cons, hend]; rfl)
      exact List.all_eq_false.2 ⟨x, List.mem_of_getLast? hend, by simp [hx]⟩

private theorem drop_word (lang more : List Char) : (lang ++ ' ' :: more).drop (lang.length + 1) = more := by
  rw [← List.singleton_append, ← List.append_assoc]
  exact List.drop_left' (by simp)

theorem IsWords.ne_nil {lang : List Char} {details : Option (List Char)} (h : IsWords (some lang) details) :
    lang ≠ [] := by
  cases h with
  | word hlang _ => exact (isTrimmed_iff.1 hlang).1
  | more hlang _ _ =>
    obtain ⟨c, hc, -⟩ := hlang
    exact List.ne_nil_of_mem (List.mem_of_head? hc)

theorem Fence.isWords (f : Fence) : IsWords f.words.1 f.words.2 := by
  rw [words]
  generalize hinfo : trim f.info = info
  have htrim : trim info = info := by rw [← hinfo, trim_trim]
  by_cases hne : info = []
  · rw [hne]
    exact .nothing
  have htrimmed := isTrimmed_iff.2 ⟨hne, htrim⟩
  have hspace : ' ' ∉ info.takeWhile (· != ' ') := fun hmem => by simpa using List.mem_takeWhile_imp hmem
  have hsplit := List.takeWhile_append_dropWhile (p := (· != ' ')) (l := info)
  have hnot := List.head?_dropWhile_not (· != ' ') info
  generalize info.takeWhile (· != ' ') = lang at hspace hsplit ⊢
  cases hrest : info.dropWhile (· != ' ') with
  | nil =>
    rw [hrest, List.append_nil] at hsplit
    rw [hsplit] at hspace ⊢
    rw [nonEmpty_of_ne hne, List.drop_of_length_le (by omega)]
    exact .word htrimmed hspace
  | cons d more =>
    rw [hrest] at hsplit hnot
    obtain rfl : d = ' ' := by simpa using hnot
    -- The text is trimmed, so the space stands neither at its start nor at its end.
    rw [← hsplit] at htrimmed
    obtain ⟨hlang, hmore⟩ := isTrimmed_split htrimmed
    have hdetails := trim_ne_nil hmore
    have hwords := IsWords.more hlang hspace (isTrimmed_iff.2 ⟨hdetails, trim_trim more⟩)
    rwa [← hsplit, drop_word, nonEmpty_of_ne hwords.ne_nil, nonEmpty_of_ne hdetails]

section

variable {lang details : Option (List Char)} (h : IsWords lang details)
include h

theorem IsWords.trim_infoText : trim (infoText lang details) = infoText lang details := by
  cases h with
  | nothing => rfl
  | word hlang _ =>
    rw [infoText]
    simpa using (isTrimmed_iff.1 hlang).2
  | @more lang details hlang _ hdetails =>
    obtain ⟨hne, -⟩ := isTrimmed_iff.1 hdetails
    refine trim_eq_self (fun c hc => ?_) fun c hc => ?_
    · obtain ⟨d, hd, hblank⟩ := hlang
      have hhead : (infoText (some lang) (some details)).head? = some d := by
        show (lang ++ ' ' :: details).head? = _
        rw [List.head?_append, Option.mem_def.1 hd, Option.some_or]
      rw [hhead] at hc
      cases hc
      exact hblank
    · refine hdetails.2 c ?_
      have hlast : (infoText (some lang) (some details)).getLast? = details.getLast? := by
        show (lang ++ ([' '] ++ details)).getLast? = _
        rw [← List.append_assoc, List.getLast?_append_of_ne_nil _ hne]
      rwa [← hlast]

/-- What is said is found again in the text that says it. -/
theorem IsWords.words_eq {f : Fence} (hinfo : f.info = infoText lang details) : f.words = (lang, details) := by
  have hword {cs : List Char} (hspace : ' ' ∉ cs) : ∀ c ∈ cs, (c != ' ') = true := fun c hc => by
    simp only [bne_iff_ne]
    rintro rfl
    exact hspace hc
  rw [Fence.words, hinfo, h.trim_infoText]
  cases h with
  | nothing => rfl
  | @word lang hlang hspace =>
    obtain ⟨hne, -⟩ := isTrimmed_iff.1 hlang
    have htake : lang.takeWhile (· != ' ') = lang := List.takeWhile_eq_self_iff.2 (hword hspace)
    have hinfo : infoText (some lang) none = lang := List.append_nil lang
    rw [hinfo, htake, nonEmpty_of_ne hne, List.drop_of_length_le (by omega)]
    rfl
  | @more lang details hlang hspace hdetails =>
    obtain ⟨hne, htrim⟩ := isTrimmed_iff.1 hdetails
    have hlang := (IsWords.more hlang hspace hdetails).ne_nil
    have hinfo : infoText (some lang) (some details) = lang ++ ' ' :: details := rfl
    have htake : (lang ++ ' ' :: details).takeWhile (· != ' ') = lang := by
      rw [List.takeWhile_append_of_pos (hword hspace), List.takeWhile_cons_of_neg (by decide), List.append_nil]
    rw [hinfo, htake, drop_word, htrim, nonEmpty_of_ne hlang, nonEmpty_of_ne hne]

end

/-! ### Code blocks -/

/-- A code block says what its fence says. -/
theorem Setting.words_fencedCode (s : Setting) (fence : Fence) (l : Line) (ls : List Line) :
    ∃ span value notes, (s.fencedCode fence l ls).1 = .code span value fence.words.1 fence.words.2 notes := by
  unfold fencedCode
  dsimp only
  split <;> exact ⟨_, _, _, rfl⟩

/-- Some line is read as the first one of a code block with the language and the details. -/
def IsInfo (lang details : Option (List Char)) : Prop :=
  ∃ (s : Setting) (limit : Value) (l : Line) (ls : List Line) (span : Span) (value : List Char) (notes : List Note),
    '\n' ∉ l.text ∧ (s.chunk limit l ls).1 = .code span value lang details notes

theorem IsInfo.isWords {lang details : Option (List Char)} (h : IsInfo lang details) :
    IsWords lang details ∧ '\n' ∉ infoText lang details := by
  obtain ⟨s, limit, l, ls, span, value, notes, hfeed, hchunk⟩ := h
  have hkind := congrArg Chunk.kind hchunk
  rcases s.chunk_cases limit l with h | ⟨fence, hfence, h⟩ | ⟨depth, -, h⟩ | h | h | ⟨m, -, h⟩ | h <;>
    rw [h] at hchunk hkind
  · cases hchunk
    exact ⟨.nothing, List.not_mem_nil⟩
  · obtain ⟨span', value', notes', hwords⟩ := s.words_fencedCode fence l ls
    rw [hwords] at hchunk
    injection hchunk with _ _ hlang hdetails
    rw [← hlang, ← hdetails]
    rw [Line.trimStart_text] at hfence
    have hsuffix := (Fence.info_suffix hfence).trans (List.dropWhile_suffix _)
    exact ⟨fence.isWords, Fence.notMem_infoText (by decide) fun hmem => hfeed (hsuffix.subset hmem)⟩
  · cases hkind
  · cases hkind
  · cases hkind
  · cases hkind
  · rcases s.kind_paragraph _ l ls with hother | hother <;> rw [hother] at hkind <;> cases hkind

section

variable (s : Setting) {fence : Fence} {l : Line} {inner : List Line} (closing : Option Line)
  (hinner : ∀ x ∈ inner, fence.closedBy (Text.trimStart x.text) = false)
  (hclosing : ∀ x ∈ closing, x.indent s.tab < 4 ∧ fence.closedBy (Text.trimStart x.text) = true)
include hinner hclosing

/-- A code block whose fence stands at the start of its line takes the lines up to the one that closes it. -/
private theorem Setting.fencedCode_eq (hl : l.indent s.tab = 0) : ∃ span notes,
    s.fencedCode fence l (inner ++ closing.toList) =
      (.code span (join ['\n'] (inner.map Line.text)) fence.words.1 fence.words.2 notes,
        (inner ++ closing.toList).length) := by
  have htake : (inner ++ closing.toList).takeWhile
      (fun x => !(x.indent s.tab < 4 && fence.closedBy x.trimStart.text)) = inner := by
    rw [List.takeWhile_append_of_pos fun x hx => by simp [Line.trimStart_text, hinner x hx]]
    cases closing with
    | none => exact List.append_nil inner
    | some x =>
      obtain ⟨hindent, hcloses⟩ := hclosing x rfl
      rw [Option.toList_some, List.takeWhile_cons_of_neg (by simp [Line.trimStart_text, hindent, hcloses]),
        List.append_nil]
  have hvalue : inner.map (fun x => (x.dropColumns s.tab (l.indent s.tab)).text) = inner.map Line.text := by
    rw [hl]
    exact List.map_congr_left fun x _ => Line.text_dropColumns_zero s.tab x
  unfold fencedCode
  dsimp only
  rw [htake, hvalue, List.drop_left]
  cases closing with
  | none => exact ⟨_, _, by rw [Option.toList_none, List.append_nil]; rfl⟩
  | some x => exact ⟨_, _, by rw [Option.toList_some, List.length_append]; rfl⟩

theorem Setting.segments_fencedCode {c : Char} {cs : List Char} (hl : l.text = c :: cs) (hc : isBlank c = false)
    (hfence : Fence.opening? l.text = some fence) (limit : Value) (gap : Bool) : ∃ span notes,
      s.segments limit gap (l :: (inner ++ closing.toList)) =
        [⟨gap, .code span (join ['\n'] (inner.map Line.text)) fence.words.1 fence.words.2 notes⟩] := by
  have hindent := Line.indent_of_head hl hc s.tab
  obtain ⟨span, notes, hcode⟩ := s.fencedCode_eq closing hinner hclosing hindent
  have hchunk (ls : List Line) : s.chunk limit l ls = s.fencedCode fence l ls := by
    unfold chunk
    dsimp only
    rw [hindent, Line.trimStart_of_head hl hc, if_neg (by decide), hfence]
  refine ⟨span, notes, ?_⟩
  rw [segments, if_neg (by rw [Line.isBlank_of_head hl hc]; decide), hchunk, hcode]
  dsimp only
  rw [List.drop_length, segments]

end

end MarkdownTree.Scan
