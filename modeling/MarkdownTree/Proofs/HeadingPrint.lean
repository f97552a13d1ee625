import MarkdownTree.Proofs.BlockPrint

/-!
# The content of headings

A heading is underlined only if something shows in its content (`Writes.all_isBlank`), and then it does not start like a
heading with marks (`Writes.head?_ne`).  Content that does not show is all text, and printing it twice is like printing
it once (`markedHeading_texts`).
-/

namespace MarkdownTree.Print

open Text

/-! ### Written blanks -/

private theorem not_isBlank_of_isSpecial {atx : Bool} {c : Char} (h : isSpecial atx c = true) : isBlank c = false := by
  unfold isSpecial at h
  simp only [Bool.or_eq_true, Bool.and_eq_true, beq_iff_eq] at h
  rcases h with ((((((rfl | rfl) | rfl) | rfl) | rfl) | rfl) | rfl) | ⟨-, rfl⟩ <;> decide

private theorem not_isBlank_of_isLineMark {c : Char} (h : isLineMark c = true) : isBlank c = false := by
  unfold isLineMark at h
  simp only [Bool.or_eq_true, beq_iff_eq] at h
  rcases h with ((((rfl | rfl) | rfl) | rfl) | rfl) | rfl <;> decide

private theorem all_isBlank_escapeWhere (atx : Bool) (cs : List Char) :
    (escapeWhere (isSpecial atx) cs).all isBlank = cs.all isBlank := by
  induction cs with
  | nil => rfl
  | cons c cs ih =>
    have hcons : escapeWhere (isSpecial atx) (c :: cs) =
        (if isSpecial atx c then ['\\', c] else [c]) ++ escapeWhere (isSpecial atx) cs := rfl
    rw [hcons, List.all_append, ih, List.all_cons]
    split
    · rename_i hc
      simp [not_isBlank_of_isSpecial hc]
    · simp

/-- A line is written as it is, or with a backslash before its first mark, or before the mark after its number. -/
theorem escapeLineStart_cases (line : List Char) :
    escapeLineStart line = line ∧ (∀ c ∈ line.head?, isLineMark c = false) ∨
      escapeLineStart line = '\\' :: line ∧ (∃ c ∈ line.head?, isLineMark c = true) ∨
      ∃ ds d rest, line = ds ++ d :: rest ∧ escapeLineStart line = ds ++ '\\' :: d :: rest ∧ ds ≠ [] ∧
        (∀ x ∈ ds, isDigit x = true) ∧ (d = '.' ∨ d = ')') := by
  cases line with
  | nil => exact .inl ⟨rfl, by simp⟩
  | cons c cs =>
    unfold escapeLineStart
    dsimp only
    by_cases hc : isLineMark c = true
    · rw [if_pos hc]
      exact .inr (.inl ⟨rfl, c, rfl, hc⟩)
    · rw [if_neg hc]
      have hmark : ∀ d ∈ (c :: cs).head?, isLineMark d = false := by simpa using hc
      split
      · rename_i d rest hdrop
        split
        · rename_i hcond
          refine .inr (.inr ⟨(c :: cs).takeWhile isDigit, d, rest, ?_, rfl, ?_, ?_, hcond.2.2⟩)
          · rw [← hdrop, takeWhile_append_drop]
          · exact List.ne_nil_of_length_pos hcond.1
          · exact fun x hx => List.mem_takeWhile_imp hx
        · exact .inl ⟨rfl, hmark⟩
      · exact .inl ⟨rfl, hmark⟩

private theorem all_isBlank_escapeLineStart (line : List Char) :
    (escapeLineStart line).all isBlank = line.all isBlank := by
  rcases escapeLineStart_cases line with ⟨h, -⟩ | ⟨h, c, hc, hmark⟩ | ⟨ds, d, rest, hline, h, -, -, hd⟩
  · rw [h]
  · rw [h]
    have hline : line.all isBlank = false :=
      List.all_eq_false.2 ⟨c, List.mem_of_head? hc, by simp [not_isBlank_of_isLineMark hmark]⟩
    rw [List.all_cons, hline, Bool.and_false]
  · have hblank : isBlank d = false := by
      rcases hd with rfl | rfl <;> decide
    rw [h, hline]
    simp [hblank]

/-- No line that is written starts with a number sign. -/
private theorem head?_escapeLineStart (line : List Char) : (escapeLineStart line).head? ≠ some '#' := by
  rcases escapeLineStart_cases line with ⟨h, hmark⟩ | ⟨h, -⟩ | ⟨ds, d, rest, hline, h, hne, hdigit, -⟩
  · rw [h]
    exact fun hhead => absurd (hmark '#' hhead) (by decide)
  · simp [h]
  · obtain ⟨c, ds, rfl⟩ := List.exists_cons_of_ne_nil hne
    rw [h, List.cons_append, List.head?_cons]
    rintro ⟨⟩
    exact absurd (hdigit '#' (.head _)) (by decide)

private theorem all_isBlank_escapeLines (atx atStart : Bool) (lines : List (List Char)) :
    (join ['\n'] (escapeLines atx atStart lines)).all isBlank = (join ['\n'] lines).all isBlank := by
  induction lines generalizing atStart with
  | nil => rfl
  | cons line lines ih =>
    have hline : (if atStart then escapeLineStart (escapeWhere (isSpecial atx) line)
        else escapeWhere (isSpecial atx) line).all isBlank = line.all isBlank := by
      split
      · rw [all_isBlank_escapeLineStart, all_isBlank_escapeWhere]
      · exact all_isBlank_escapeWhere atx line
    rw [escapeLines]
    cases lines with
    | nil => exact hline
    | cons next lines =>
      have hrest := ih true
      rw [escapeLines] at hrest ⊢
      rw [join_cons_cons, join_cons_cons, List.all_append, List.all_append, hline, List.all_cons, List.all_cons, hrest]

private theorem all_isBlank_escape (atStart atx : Bool) (cs : List Char) :
    (escape atStart atx cs).all isBlank = cs.all isBlank := by
  rw [escape, all_isBlank_escapeLines, join_fields]

private theorem all_isBlank_textText {atStart beforeLink : Bool} {value : String} {x : List Char}
    (h : textText atStart false beforeLink (.text value) = .ok x) : x.all isBlank = value.toList.all isBlank := by
  have hescape := all_isBlank_escape atStart false value.toList
  unfold textText at h
  dsimp only [textOr, bind, Except.bind, pure, Except.pure] at h
  rw [if_neg Bool.false_ne_true] at h
  obtain rfl := Except.ok.inj h
  split
  · rename_i hlast
    rw [Bool.and_eq_true, beq_iff_eq] at hlast
    have hmark : (escape atStart false value.toList).all isBlank = false :=
      List.all_eq_false.2 ⟨'!', List.mem_of_getLast? hlast.2, by decide⟩
    rw [← hescape, hmark]
    simp [show isBlank '!' = false by decide]
  · exact hescape

/-- Content is blank if nothing in it shows. -/
theorem Writes.all_isBlank {α : Type} {fresh : Bool} {ts : List (Tree α)} {x : List Char}
    (h : Writes false fresh ts x) :
    x.all isBlank = !ts.any Tree.shows := by
  induction h with
  | nil => rfl
  | @text fresh note value children ts x y htext _ ih =>
    rw [List.all_append, List.any_cons, all_isBlank_textText htext, ih]
    have hshows : (Tree.node note (.text value) children).shows = value.toList.any (!isBlank ·) := rfl
    have hvalue : value.toList.all isBlank = !value.toList.any (!isBlank ·) := by simp [List.not_any_eq_all_not]
    rw [hshows, Bool.not_or, hvalue]
  | emphasis d hwidth _ _ _ _ =>
    rcases Content.width_cases hwidth with ⟨rfl, rfl⟩ | ⟨rfl, rfl⟩ <;> cases d <;> rfl
  | link => rfl
  | inlineCode =>
    rw [codeSpanText_eq_cons]
    rfl
  | image himage =>
    obtain ⟨init, rfl⟩ := exists_of_imageText himage
    rw [List.all_append, List.all_append]
    have hmark : [')'].all isBlank = false := rfl
    rw [hmark, Bool.and_false, Bool.false_and]
    rfl
  | lineBreak => rfl

private theorem head?_escape (atx : Bool) (cs : List Char) : (escape true atx cs).head? ≠ some '#' := by
  obtain ⟨line, lines, hlines⟩ := List.exists_cons_of_ne_nil (fields_ne_nil '\n' cs)
  rw [escape, hlines, escapeLines, if_pos rfl]
  have hline := head?_escapeLineStart (escapeWhere (isSpecial atx) line)
  cases escapeLines atx true lines with
  | nil => exact hline
  | cons next rest =>
    rw [join_cons_cons]
    cases hfirst : escapeLineStart (escapeWhere (isSpecial atx) line) with
    | nil => simp
    | cons c cs => rwa [hfirst] at hline

/-- Content that starts a line does not start with a number sign. -/
theorem Writes.head?_ne {α : Type} {ts : List (Tree α)} {x : List Char} (h : Writes false true ts x) :
    x.head? ≠ some '#' := by
  generalize hfresh : true = fresh at h
  induction h with
  | nil => simp
  | @text fresh note value children ts x y htext _ ih =>
    obtain rfl := hfresh
    unfold textText at htext
    dsimp only [textOr, bind, Except.bind, pure, Except.pure] at htext
    rw [if_neg Bool.false_ne_true] at htext
    have hescape := head?_escape false value.toList
    cases x with
    | nil => exact ih rfl
    | cons c x =>
      rw [List.cons_append, List.head?_cons]
      have htext := Except.ok.inj htext
      split at htext
      · cases hchars : escape true false value.toList with
        | nil =>
          rw [hchars] at htext
          cases htext
          simp
        | cons d ds =>
          rw [hchars] at htext hescape
          cases ds with
          | nil =>
            cases htext
            simp
          | cons e es =>
            cases htext
            exact hescape
      · rwa [htext] at hescape
  | emphasis d hwidth =>
    rcases Content.width_cases hwidth with ⟨rfl, rfl⟩ | ⟨rfl, rfl⟩ <;> cases d <;>
      simp [Delimiter.char, List.replicate]
  | link => simp
  | inlineCode =>
    rw [codeSpanText_eq_cons]
    simp
  | image himage =>
    obtain ⟨tail, htail⟩ := linkTail_fields _ _
    rw [imageText, htail] at himage
    cases himage
    simp
  | lineBreak => simp

theorem trim_eq_nil {cs : List Char} (h : cs.all isBlank = true) : trim cs = [] := by
  have hstart : trimStart cs = [] := List.dropWhile_eq_nil_iff.2 (List.all_eq_true.1 h)
  rw [trim, hstart]
  rfl

theorem kind_of_not_shows {α : Type} {t : Tree α} (h : t.shows = false) : t.kind = .text := by
  obtain ⟨note, content, children⟩ := t
  cases content <;> first | rfl | cases h

theorem exists_atxText (closed : Bool) (content : List Char) {depth : Nat} (h : depth ≠ 0) :
    ∃ more, atxText closed (List.replicate depth '#') content = '#' :: more := by
  obtain ⟨n, rfl⟩ := Nat.exists_eq_succ_of_ne_zero h
  unfold atxText
  rw [List.replicate_succ]
  split
  · exact ⟨_, rfl⟩
  · exact ⟨_, rfl⟩

/-! ### Rows of texts -/

variable (o : PrintOptions)

/-- Texts alone are printed alike in all scenes, and leave a pen whose surroundings are new if there are any. -/
private theorem renderInlines_texts {ts : List (Tree (Option Position))} (h : ∀ t ∈ ts, t.kind = .text) (atx : Bool)
    (outer : Option Delimiter) (before : Option Char) {after : Opening} (hafter : after.Known) (first : Bool)
    (touching : Option Char) : ∃ x around, ∀ (s : Scene) (pen : Pen), pen.atx = atx →
      (Printer.standard o).renderInlines s outer before after first (Draft.ofTrees ts) touching pen =
        .ok (x, if ts.isEmpty then pen else { pen with around }) := by
  induction ts generalizing outer before after first touching with
  | nil =>
    refine ⟨[], {}, fun s pen _ => ?_⟩
    rw [Draft.ofTrees, Printer.renderInlines]
    rfl
  | cons t ts ih =>
    obtain ⟨ht, hts⟩ := List.forall_mem_cons.1 h
    obtain ⟨note, content, children⟩ := t
    cases content with
    | text value =>
      obtain ⟨opening, hfollow, -⟩ := follow_ofTrees hafter ts
      let edge := if first || (Draft.ofTrees ts).isEmpty then outer.map Delimiter.char else none
      let around : Surroundings := ⟨before, opening, edge.toList ++ touching.toList, ts.head?.map Tree.kind⟩
      obtain ⟨x, hx⟩ : ∃ x, textText around.atLineStart atx (around.next == some .link) (.text value) = .ok x := ⟨_, rfl⟩
      obtain ⟨y, around', hy⟩ := ih hts outer (x.getLast?.or before) hafter false none
      refine ⟨x ++ y, if ts.isEmpty then around else around', fun s pen hatx => ?_⟩
      have hrender : (Printer.standard o).render s (.ofTree (.node note (.text value) children)) { pen with around } =
          .ok (x, { pen with around }) := by
        rw [← hatx] at hx
        exact run_text o hx
      rw [Draft.ofTrees, Printer.renderInlines, hfollow]
      refine (run_bind _ pen rfl).trans ((run_bind () _ rfl).trans ((run_bind x { pen with around } hrender).trans ?_))
      have hrest := hy (s.past (emphasisCount (.ofTree (.node note (.text value) children)))) { pen with around } hatx
      refine (run_bind y _ hrest).trans ?_
      cases ts <;> rfl
    | _ => cases ht

private theorem emphasisIdsList_texts {ts : List (Tree (Option Position))}
    (h : ∀ t ∈ ts, t.kind = .text ∧ t.children = []) :
    emphasisIdsList (Draft.ofTrees ts) = .ok [] := by
  induction ts with
  | nil => rfl
  | cons t ts ih =>
    obtain ⟨⟨ht, hchildren⟩, hts⟩ := List.forall_mem_cons.1 h
    obtain ⟨note, content, children⟩ := t
    obtain rfl : children = [] := hchildren
    cases content with
    | text value =>
      rw [Draft.ofTrees, emphasisIdsList, Draft.ofTree, emphasisIds, checkChildren_fields, ih hts]
      rfl
    | _ => cases ht

/-- The same of the content of a paragraph or a heading: there are no delimiters to choose. -/
private theorem inlineContent_texts {ts : List (Tree (Option Position))}
    (h : ∀ t ∈ ts, t.kind = .text ∧ t.children = [])
    (atx : Bool) : ∃ x around, ∀ (s : Scene) (pen : Pen), pen.atx = atx →
      inlineContent o s ts pen = .ok (x, if ts.isEmpty then pen else { pen with around }) := by
  obtain ⟨x, around, hx⟩ :=
    renderInlines_texts o (fun t ht => (h t ht).1) atx none none (⟨false, rfl⟩ : Opening.nothing.Known) true none
  refine ⟨x, around, fun s pen hatx => ?_⟩
  unfold inlineContent Printer.settle
  refine (run_bind x _ (hx s pen hatx)).trans ((run_bind [] _ ?_).trans rfl)
  show Printer.lift (emphasisIdsList (Draft.ofTrees ts)) _ = _
  rw [emphasisIdsList_texts h]
  rfl

/-- A heading of texts is printed with marks alike in all scenes, and alike again after its content has been printed. -/
theorem markedHeading_texts {ts : List (Tree (Option Position))} (h : ∀ t ∈ ts, t.kind = .text ∧ t.children = [])
    (s s' : Scene) (depth : Int) {pen pen' : Pen} {x : List Char} (hatx : pen.atx = false)
    (hrun : inlineContent o s' ts pen = .ok (x, pen')) :
    markedHeading o s' depth ts pen' = markedHeading o s depth ts pen := by
  obtain ⟨y, around, hy⟩ := inlineContent_texts o h false
  obtain ⟨z, around', hz⟩ := inlineContent_texts o h true
  cases (hy s' pen hatx).symm.trans hrun
  unfold markedHeading
  refine (run_bind () _ rfl).trans ((run_bind z _ (hz s' _ rfl)).trans ?_)
  refine Eq.trans ?_ ((run_bind () _ rfl).trans (run_bind z _ (hz s { pen with atx := true } rfl))).symm
  cases ts <;> rfl

end MarkdownTree.Print
