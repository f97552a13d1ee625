import MarkdownTree.Proofs.HeadingForm

/-!
# Characters behind backslashes

Special characters of a text are written behind a backslash wherever they stand (`slashed_textText`).  So a heading
keeps its last character when it is read (`Writes.hash_slashed`), and no written content starts like a task box
(`Writes.taskBox?_eq_none`): a link is followed by a parenthesis.
-/

namespace MarkdownTree.Print

open Text Scan

/-- Every occurrence of a character in a text stands behind a backslash. -/
def Slashed (c : Char) (x : List Char) : Prop :=
  ∀ init rest, x = init ++ c :: rest → init.getLast? = some '\\'

namespace Slashed

variable {c : Char} {x y : List Char}

private theorem nil : Slashed c [] := by
  intro init rest h
  simp at h

private theorem of_notMem (h : c ∉ x) : Slashed c x := by
  rintro init rest rfl
  exact absurd (by simp) h

theorem append (hx : Slashed c x) (hy : Slashed c y) : Slashed c (x ++ y) := by
  intro init rest h
  rcases List.append_eq_append_iff.1 h with ⟨more, rfl, hmore⟩ | ⟨more, rfl, hmore⟩
  · have hlast := hy more rest hmore
    rw [List.getLast?_append, hlast]
    rfl
  · cases more with
    | nil =>
      have hlast := hy [] rest (by simpa using hmore.symm)
      cases hlast
    | cons d more =>
      obtain ⟨rfl, -⟩ := List.cons.inj hmore
      exact hx init more rfl

/-- A backslash may stand anywhere. -/
private theorem insert (h : Slashed c (x ++ y)) (hc : c ≠ '\\') : Slashed c (x ++ '\\' :: y) := by
  intro init rest hsplit
  rcases List.append_eq_append_iff.1 hsplit with ⟨more, rfl, hmore⟩ | ⟨more, rfl, hmore⟩
  · cases more with
    | nil => exact absurd (List.cons.inj hmore).1.symm hc
    | cons d more =>
      obtain ⟨rfl, rfl⟩ := List.cons.inj hmore
      cases more with
      | nil => exact List.getLast?_concat
      | cons e more =>
        have hlast := h (x ++ e :: more) rest (by simp)
        rw [List.getLast?_append_of_ne_nil _ (List.cons_ne_nil _ _)] at hlast ⊢
        rwa [List.getLast?_cons_cons]
  · cases more with
    | nil => exact absurd (List.cons.inj hmore).1 hc
    | cons d more =>
      obtain ⟨rfl, -⟩ := List.cons.inj hmore
      exact h init (more ++ y) (by simp)

theorem head?_ne (h : Slashed c x) : x.head? ≠ some c := by
  intro hhead
  obtain ⟨rest, rfl⟩ := List.head?_eq_some_iff.1 hhead
  cases h [] rest rfl

end Slashed

section

variable {c : Char} (hne : c ≠ '\\') (hnewline : c ≠ '\n')
include hne

private theorem slashed_escapeWhere {p : Char → Bool} (hp : p c = true) (cs : List Char) :
    Slashed c (escapeWhere p cs) := by
  induction cs with
  | nil => exact .nil
  | cons d cs ih =>
    by_cases hd : p d = true
    · rw [escapeWhere_cons_of_pos cs hd]
      refine Slashed.append (x := ['\\', d]) ?_ ih
      rintro (_ | ⟨e, _ | ⟨f, init⟩⟩) rest h
      · exact absurd (List.cons.inj h).1.symm hne
      · obtain ⟨rfl, -⟩ := List.cons.inj h
        rfl
      · simp at h
    · rw [escapeWhere_cons_of_neg cs hd]
      refine Slashed.append (x := [d]) (.of_notMem ?_) ih
      rintro hmem
      obtain rfl := List.mem_singleton.1 hmem
      exact hd hp

private theorem Slashed.escapeLineStart {line : List Char} (h : Slashed c line) :
    Slashed c (Print.escapeLineStart line) := by
  rcases escapeLineStart_cases line with ⟨hline, -⟩ | ⟨hline, -⟩ | ⟨ds, d, rest, rfl, hline, -⟩
  · rwa [hline]
  · rw [hline]
    exact Slashed.insert (x := []) h hne
  · rw [hline]
    exact h.insert hne

include hnewline

private theorem slashed_escape {atx : Bool} (hc : isSpecial atx c = true) (fresh : Bool) (cs : List Char) :
    Slashed c (escape fresh atx cs) := by
  unfold escape
  induction fields '\n' cs generalizing fresh with
  | nil => exact .nil
  | cons line lines ih =>
    have hline : Slashed c (if fresh then Print.escapeLineStart (escapeWhere (isSpecial atx) line)
        else escapeWhere (isSpecial atx) line) := by
      have hplain := slashed_escapeWhere hne hc line
      split
      · exact hplain.escapeLineStart hne
      · exact hplain
    rw [escapeLines]
    cases lines with
    | nil => exact hline
    | cons next lines =>
      have hrest := ih true
      rw [escapeLines] at hrest ⊢
      rw [join_cons_cons]
      exact hline.append (Slashed.append (x := ['\n']) (.of_notMem (by simpa using hnewline)) hrest)

/-- A special character of a text stands behind a backslash. -/
theorem slashed_textText {fresh atx beforeLink : Bool} (hc : isSpecial atx c = true) {value : String} {x : List Char}
    (h : textText fresh atx beforeLink (.text value) = .ok x) : Slashed c x := by
  have hescape := slashed_escape hne hnewline hc fresh (if atx then flatten value.toList else value.toList)
  unfold textText at h
  dsimp only [textOr, bind, Except.bind, pure, Except.pure] at h
  generalize (if atx then flatten value.toList else value.toList) = cs at hescape h
  obtain rfl := Except.ok.inj h
  split
  · rename_i hlast
    rw [Bool.and_eq_true, beq_iff_eq] at hlast
    obtain ⟨init, hinit⟩ := List.getLast?_eq_some_iff.1 hlast.2
    rw [hinit] at hescape ⊢
    rw [List.dropLast_concat]
    exact hescape.insert hne
  · exact hescape

end

/-! ### Ends of headings -/

variable {α : Type} {fresh : Bool} {ts : List (Tree α)} {x : List Char}

/-- A text ends with a number sign only behind a backslash. -/
def KeepsHash (x : List Char) : Prop :=
  ∀ init, x = init ++ ['#'] → init.getLast? = some '\\'

theorem KeepsHash.append {x y : List Char} (hx : KeepsHash x) (hy : KeepsHash y) : KeepsHash (x ++ y) := by
  intro init h
  cases y using List.reverseRecOn with
  | nil => exact hx init (by simpa using h)
  | append_singleton y c =>
    rw [← List.append_assoc] at h
    obtain ⟨rfl, hc⟩ := List.append_inj' h rfl
    obtain rfl := List.singleton_inj.1 hc
    rw [List.getLast?_append, hy y rfl]
    rfl

private theorem keepsHash_concat (x : List Char) {c : Char} (hc : c ≠ '#') : KeepsHash (x ++ [c]) := by
  intro init h
  exact absurd (List.singleton_inj.1 (List.append_inj' h rfl).2) hc

/-- A number sign at the end of a marked heading stands behind a backslash. -/
theorem Writes.keepsHash (h : Writes true fresh ts x) : KeepsHash x := by
  induction h with
  | nil => exact fun init h => by simp at h
  | text htext _ ih =>
    have hx := slashed_textText (c := '#') (by decide) (by decide) (by decide) htext
    exact KeepsHash.append (fun init h => hx init [] h) ih
  | emphasis d hwidth _ _ ihinner ih =>
    have hmarks (width : Nat) : KeepsHash (List.replicate width d.char) := by
      intro init h
      have hmem : '#' ∈ List.replicate width d.char := by
        rw [h]
        simp
      have hchar := List.eq_of_mem_replicate hmem
      cases d <;> cases hchar
    exact (hmarks _).append (ihinner.append ((hmarks _).append ih))
  | @link fresh note destination title children ts x y tail hinner htail _ ihinner ih =>
    obtain ⟨init, rfl⟩ := exists_of_linkTail htail
    have hlast := keepsHash_concat (']' :: init) (c := ')') (by decide)
    have hopen := keepsHash_concat [] (c := '[') (by decide)
    simpa using hopen.append (ihinner.append (hlast.append ih))
  | inlineCode _ ih =>
    refine KeepsHash.append ?_ ih
    unfold codeSpanText
    dsimp only
    rw [List.replicate_succ', ← List.append_assoc]
    exact keepsHash_concat _ (by decide)
  | image himage _ ih =>
    obtain ⟨init, rfl⟩ := exists_of_imageText himage
    exact (keepsHash_concat init (by decide)).append ih
  | lineBreak _ ih => exact (keepsHash_concat [] (c := ' ') (by decide)).append ih

/-! ### Task boxes -/

/-- Written content has no closing bracket at its start, and behind its first character only if that is a sign. -/
private theorem Writes.bracket (h : Writes false fresh ts x) : x.head? ≠ some ']' ∧
    ∀ c rest, x = c :: ']' :: rest → c ∈ ['\\', '*', '_', '[', '\x60', '!'] := by
  have hsign {c : Char} {x : List Char} (hc : c ∈ ['\\', '*', '_', '[', '\x60', '!']) :
      (c :: x).head? ≠ some ']' ∧ ∀ d rest, c :: x = d :: ']' :: rest → d ∈ ['\\', '*', '_', '[', '\x60', '!'] := by
    constructor
    · rintro ⟨⟩
      exact absurd hc (by decide)
    · rintro d rest hd
      exact (List.cons.inj hd).1 ▸ hc
  induction h with
  | nil => simp
  | @text fresh note value children ts x y htext _ ih =>
    have hx : Slashed ']' x := slashed_textText (by decide) (by decide) (by decide) htext
    rcases x with _ | ⟨a, _ | ⟨b, x⟩⟩
    · exact ih
    · refine ⟨hx.head?_ne, fun c rest hsplit => ?_⟩
      have hy : y = ']' :: rest := (List.cons.inj hsplit).2
      exact absurd (by rw [hy]; rfl) ih.1
    · refine ⟨hx.head?_ne, fun c rest hsplit => ?_⟩
      obtain ⟨rfl, hb⟩ := List.cons.inj hsplit
      obtain ⟨rfl, -⟩ := List.cons.inj hb
      cases hx [a] x rfl
      decide
  | emphasis d hwidth =>
    rcases Content.width_cases hwidth with ⟨rfl, rfl⟩ | ⟨rfl, rfl⟩ <;> exact hsign (by cases d <;> decide)
  | link => exact hsign (by decide)
  | inlineCode =>
    rw [codeSpanText_eq_cons]
    exact hsign (by decide)
  | image himage =>
    obtain ⟨rest, rfl⟩ := exists_cons_of_imageText himage
    exact hsign (by decide)
  | lineBreak => exact hsign (by decide)

private theorem exists_of_taskBox? {line : List Char} (h : taskBox? line ≠ none) :
    ∃ c d rest, line = '[' :: c :: ']' :: d :: rest ∧ c ∈ [' ', 'x', 'X'] ∧ isGap d = true := by
  unfold taskBox? at h
  split at h
  · rename_i c rest
    dsimp only at h
    split at h
    · split at h
      · rename_i hbox
        obtain ⟨hc, hgaps, -⟩ := hbox
        cases rest with
        | nil => cases hgaps
        | cons d rest =>
          by_cases hd : isGap d = true
          · exact ⟨c, d, rest, rfl, by simpa using hc, hd⟩
          · rw [List.takeWhile_cons_of_neg hd] at hgaps
            cases hgaps
      · exact absurd rfl h
    · exact absurd rfl h
  · exact absurd rfl h

theorem head?_fields (cs : List Char) : (fields '\n' cs).head? = some (firstLine cs) := by
  induction cs with
  | nil => rfl
  | cons c cs ih =>
    by_cases hc : c = '\n'
    · subst hc
      rfl
    · obtain ⟨part, parts, hparts⟩ := List.exists_cons_of_ne_nil (fields_ne_nil '\n' cs)
      rw [hparts] at ih
      rw [fields, if_neg hc, hparts, firstLine_cons hc, ← Option.some.inj ih]
      rfl

/-- No written content starts like a task box. -/
theorem Writes.taskBox?_eq_none (h : Writes false true ts x) :
    ∀ line ∈ (fields '\n' x).head?, taskBox? line = none := by
  rw [head?_fields]
  rintro _ ⟨⟩
  by_contra hbox
  obtain ⟨c, d, rest, hline, hc, hd⟩ := exists_of_taskBox? hbox
  obtain ⟨more, hmore⟩ := List.takeWhile_prefix (l := x) (p := (· != '\n'))
  have hx : x = '[' :: c :: ']' :: d :: (rest ++ more) := by
    rw [← hmore]
    show firstLine x ++ more = _
    rw [hline]
    rfl
  clear hmore hline hbox
  generalize hfresh : true = fresh at h
  induction h with
  | nil => cases hx
  | @text fresh note value children ts x y htext hrest ih =>
    have hslashed : Slashed '[' x := slashed_textText (by decide) (by decide) (by decide) htext
    cases x with
    | nil => exact ih hx hfresh
    | cons a x => exact hslashed.head?_ne (congrArg some (List.cons.inj hx).1)
  | emphasis d hwidth =>
    rcases Content.width_cases hwidth with ⟨rfl, rfl⟩ | ⟨rfl, rfl⟩ <;> cases d <;> cases (List.cons.inj hx).1
  | @link _ _ destination title children ts inner y tail hinner htail _ _ _ =>
    obtain ⟨more, rfl⟩ : ∃ more, tail = '(' :: more := by
      cases title <;> cases htail <;> exact ⟨_, rfl⟩
    have hsplit := (List.cons.inj hx).2
    rcases inner with _ | ⟨a, _ | ⟨b, inner⟩⟩
    · cases (List.cons.inj hsplit).1
      exact absurd hc (by decide)
    · cases (List.cons.inj (List.cons.inj (List.cons.inj hsplit).2).2).1
      exact absurd hd (by decide)
    · obtain ⟨rfl, hb⟩ := List.cons.inj hsplit
      obtain ⟨rfl, -⟩ := List.cons.inj hb
      have hsign := hinner.bracket.2 a inner rfl
      simp only [List.mem_cons, List.not_mem_nil, or_false] at hc
      rcases hc with rfl | rfl | rfl <;> exact absurd hsign (by decide)
  | inlineCode =>
    rw [codeSpanText_eq_cons] at hx
    cases (List.cons.inj hx).1
  | image himage =>
    obtain ⟨rest, rfl⟩ := exists_cons_of_imageText himage
    cases (List.cons.inj hx).1
  | lineBreak => cases (List.cons.inj hx).1

end MarkdownTree.Print
