import MarkdownTree.Proofs.HeadingPrint
import MarkdownTree.Proofs.LinkTail
import MarkdownTree.Proofs.Quiet

/-!
# Starts of printed lines

`LineStarts` says of every line that starts in a text what it starts with, whatever comes after the text; it holds of a
text that is put together from others if it holds of these (`LineStarts.append`).  The lines of printed texts are
harmless (`lineStarts_textText`), as the printer escapes what could open a block at the start of a line.
-/

namespace MarkdownTree.Print

open Text Scan

/-! ### Starts of lines -/

/-- What starts at the start of a line in a text has a property, whatever of a kind comes after the text. -/
def LineStarts (P follows : List Char → Prop) (fresh : Bool) (x : List Char) : Prop :=
  ∀ z, follows z → ∀ init rest, x = init ++ rest → rest ≠ [] → startsAfter fresh init = true → P (rest ++ z)

section

variable {P Q follows follows' : List Char → Prop} {fresh : Bool} {x y : List Char}

theorem startsAfter_append (fresh : Bool) (x y : List Char) :
    startsAfter fresh (x ++ y) = startsAfter (startsAfter fresh x) y := by
  unfold startsAfter
  rw [List.getLast?_append]
  cases y.getLast? <;> rfl

theorem startsAfter_of_ne (hne : x ≠ []) (b : Bool) : startsAfter fresh x = startsAfter b x := by
  unfold startsAfter
  rw [List.getLast?_eq_some_getLast hne]
  rfl

theorem startsAfter_eq_false (hne : x ≠ []) (h : '\n' ∉ x) : startsAfter fresh x = false := by
  unfold startsAfter
  rw [List.getLast?_eq_some_getLast hne]
  exact beq_false_of_ne fun hlast => h (hlast ▸ List.getLast_mem hne)

namespace LineStarts

theorem nil : LineStarts P follows fresh [] :=
  fun _ _ _ _ hsplit hne _ => absurd (List.append_eq_nil_iff.1 hsplit.symm).2 hne

theorem mono (h : LineStarts P follows fresh x) (hPQ : ∀ cs, P cs → Q cs) : LineStarts Q follows fresh x :=
  fun z hz init rest hsplit hne hstart => hPQ _ (h z hz init rest hsplit hne hstart)

theorem append (hx : LineStarts P follows fresh x) (hy : LineStarts P follows' (startsAfter fresh x) y)
    (hfollows : ∀ z, follows' z → follows (y ++ z)) : LineStarts P follows' fresh (x ++ y) := by
  intro z hz init rest hsplit hne hstart
  rcases List.append_eq_append_iff.1 hsplit with ⟨more, rfl, hmore⟩ | ⟨more, rfl, hmore⟩
  · rw [startsAfter_append] at hstart
    exact hy z hz more rest hmore hne hstart
  · subst hmore
    cases more with
    | nil =>
      rw [List.append_nil] at hy
      exact hy z hz [] y rfl hne hstart
    | cons c more =>
      rw [List.append_assoc]
      exact hx (y ++ z) (hfollows z hz) init (c :: more) rfl (by simp) hstart

/-- The start of the text itself is told apart from the lines that start later in it. -/
theorem of_false (h : LineStarts P follows false x) (hfirst : fresh = true → ∀ z, follows z → P (x ++ z)) :
    LineStarts P follows fresh x := by
  intro z hz init rest hsplit hne hstart
  cases init with
  | nil =>
    obtain rfl : x = rest := hsplit
    exact hfirst hstart z hz
  | cons c init =>
    rw [startsAfter_of_ne (by simp) false] at hstart
    exact h z hz _ _ hsplit hne hstart

theorem of_notMem (h : '\n' ∉ x) : LineStarts P follows false x := by
  intro z _ init rest hsplit _ hstart
  cases init with
  | nil => cases hstart
  | cons c init =>
    rw [startsAfter_eq_false (by simp) fun hmem => h (by rw [hsplit]; exact List.mem_append_left _ hmem)] at hstart
    cases hstart

theorem singleton (c : Char) : LineStarts P (fun _ => True) false [c] := by
  intro z _ init rest hsplit hne hstart
  cases init with
  | nil => cases hstart
  | cons d init =>
    obtain ⟨-, hnil⟩ := List.cons.inj hsplit
    exact absurd (List.append_eq_nil_iff.1 hnil.symm).2 hne

private theorem of_prefix (h : LineStarts Harmless Closes fresh (x ++ y)) : LineStarts Harmless Closes fresh x := by
  intro z hz init rest hsplit hne hstart
  have hharmless := h [] (fun c hc => by cases hc) init (rest ++ y) (by rw [hsplit, List.append_assoc])
    (by simp [hne]) hstart
  rw [List.append_nil] at hharmless
  exact (hharmless.of_prefix (List.prefix_append rest y) hne).append hz

end LineStarts

end

/-- The first line of a text. -/
def firstLine (cs : List Char) : List Char :=
  cs.takeWhile (· != '\n')

theorem firstLine_append {cs : List Char} (h : '\n' ∉ cs) (ds : List Char) :
    firstLine (cs ++ ds) = cs ++ firstLine ds := by
  refine List.takeWhile_append_of_pos fun c hc => ?_
  simp only [bne_iff_ne]
  rintro rfl
  exact h hc

theorem firstLine_cons {c : Char} (h : c ≠ '\n') (ds : List Char) : firstLine (c :: ds) = c :: firstLine ds :=
  List.takeWhile_cons_of_pos (by simpa using h)

theorem firstLine_newline (x more : List Char) : firstLine (x ++ '\n' :: more) = firstLine x := by
  induction x with
  | nil => rfl
  | cons c x ih =>
    by_cases hc : c = '\n'
    · rw [hc]
      rfl
    · rw [List.cons_append, firstLine_cons hc, firstLine_cons hc, ih]

/-- Lines that start in the text are quiet, whatever of a kind comes after the text. -/
abbrev QuietLines (follows : List Char → Prop) (fresh : Bool) (x : List Char) : Prop :=
  LineStarts (fun cs => IsQuiet (firstLine cs)) follows fresh x

theorem isQuiet_firstLine {cs : List Char} (h : Harmless cs) : IsQuiet (firstLine cs) := by
  obtain ⟨c, hc, hblank, -⟩ := h.head
  obtain ⟨rest, rfl⟩ := List.head?_eq_some_iff.1 hc
  have hne : c ≠ '\n' := by
    rintro rfl
    cases hblank
  refine (h.of_prefix (List.takeWhile_prefix _) ?_).isQuiet
  rw [List.takeWhile_cons_of_pos (by simpa using hne)]
  simp

/-! ### Texts -/

/-- What is escaped starts with its first character or with a backslash. -/
private theorem exists_cons_escapeWhere {c : Char} (cs : List Char) (hc : isBlank c = false) :
    ∃ d ds, escapeWhere (isSpecial false) (c :: cs) = d :: ds ∧ isBlank d = false ∧ d ∉ ['*', '_', '\x60'] := by
  by_cases hspecial : isSpecial false c = true
  · exact ⟨'\\', _, escapeWhere_cons_of_pos cs hspecial, by decide, by decide⟩
  · refine ⟨c, _, escapeWhere_cons_of_neg cs hspecial, hc, fun hmem => hspecial ?_⟩
    simp only [List.mem_cons, List.not_mem_nil, or_false] at hmem
    rcases hmem with rfl | rfl | rfl <;> rfl

private theorem harmless_escapeLineStart {c : Char} (cs : List Char) (hc : isBlank c = false) :
    Harmless (escapeLineStart (escapeWhere (isSpecial false) (c :: cs))) := by
  obtain ⟨d, ds, hescape, hblank, hmark⟩ := exists_cons_escapeWhere cs hc
  rw [hescape]
  have hslash (rest : List Char) : Harmless ('\\' :: rest) :=
    .of_head rest (by decide) (by decide) (by decide) (by decide +kernel)
  rcases escapeLineStart_cases (d :: ds) with
    ⟨hsame, hline⟩ | ⟨hsame, -⟩ | ⟨digits, e, rest, hline, hsame, hne, hdigits, he⟩
  · rw [hsame]
    exact ⟨⟨d, rfl, hblank, hline d rfl, hmark⟩, (escapeLineStart_eq_self_iff.1 hsame).2⟩
  · rw [hsame]
    exact hslash _
  · -- The mark after the number has a backslash before it.
    obtain ⟨n, digits, rfl⟩ := List.exists_cons_of_ne_nil hne
    obtain ⟨rfl, -⟩ := List.cons.inj hline
    rw [hsame]
    refine Harmless.append ⟨⟨d, rfl, hblank, ?_, hmark⟩, ?_⟩ ?_
    · refine Bool.eq_false_iff.2 fun htrue => ?_
      have hdigit := hdigits d (.head _)
      unfold isLineMark at htrue
      simp only [Bool.or_eq_true, beq_iff_eq] at htrue
      rcases htrue with ((((rfl | rfl) | rfl) | rfl) | rfl) | rfl <;> revert hdigit <;> decide +kernel
    · rintro ⟨number, f, more, hsplit, -, -, -, hf⟩
      have hdigit := hdigits f (by rw [hsplit]; simp)
      rcases hf with rfl | rfl <;> revert hdigit <;> decide +kernel
    · rintro f ⟨⟩
      exact ⟨by decide +kernel, by decide, by decide⟩

/-- A line of a text as it is written, at the start of a line or not. -/
theorem written_line (fresh atx : Bool) {line : List Char} (h : '\n' ∉ line) :
    Written atx (if fresh then escapeLineStart (escapeWhere (isSpecial atx) line) else escapeWhere (isSpecial atx) line)
      line := by
  split
  · exact written_escapeLineStart (written_escapeWhere atx h)
  · exact written_escapeWhere atx h

/-- Lines that do not start with a blank are harmless once they are escaped. -/
private theorem lineStarts_escapeLines (fresh : Bool) {lines : List (List Char)}
    (hnewline : ∀ line ∈ lines, '\n' ∉ line)
    (hfirst : fresh = true → ∀ c ∈ (join ['\n'] lines).head?, isBlank c = false)
    (hlines : ∀ init c rest, join ['\n'] lines = init ++ '\n' :: c :: rest → isBlank c = false) :
    LineStarts Harmless Closes fresh (join ['\n'] (escapeLines false fresh lines)) := by
  induction lines generalizing fresh with
  | nil => exact .nil
  | cons line lines ih =>
    obtain ⟨hline, hnext⟩ := List.forall_mem_cons.1 hnewline
    have hwritten := written_line fresh false hline
    rw [escapeLines]
    generalize hescaped : (if fresh then escapeLineStart (escapeWhere (isSpecial false) line)
      else escapeWhere (isSpecial false) line) = escaped at hwritten
    have hnil (hnone : line = []) : escaped = [] := by
      subst hnone
      cases hwritten
      rfl
    have hstart : LineStarts Harmless Closes fresh escaped := by
      by_cases hnone : line = []
      · rw [hnil hnone]
        exact .nil
      · refine .of_false (.of_notMem (hwritten.newline_notMem hline)) fun hfresh z hz => ?_
        obtain ⟨c, cs, rfl⟩ := List.exists_cons_of_ne_nil hnone
        rw [hfresh, if_pos rfl] at hescaped
        rw [← hescaped]
        refine (harmless_escapeLineStart cs (hfirst hfresh c ?_)).append hz
        cases lines with
        | nil => rfl
        | cons => rw [join_cons_cons]; rfl
    cases lines with
    | nil => exact hstart
    | cons next lines =>
      rw [join_cons_cons] at hfirst hlines
      have hrest := ih true hnext (fun _ c hc => ?_) fun init c rest hsplit => ?_
      · rw [escapeLines] at hrest ⊢
        rw [join_cons_cons]
        -- The line feed itself starts no line, as blanks do not.
        have hmiddle : startsAfter fresh escaped = false := by
          by_cases hnone : line = []
          · cases fresh with
            | false => rw [hnil hnone]; rfl
            | true =>
              have hblank := hfirst rfl '\n' (by rw [hnone]; rfl)
              cases hblank
          · refine startsAfter_eq_false (fun hempty => hnone ?_) (hwritten.newline_notMem hline)
            have hlast := hwritten.getLast?_eq
            rw [hempty] at hlast
            exact List.getLast?_eq_none_iff.1 hlast.symm
        refine hstart.append ?_ ?_
        · rw [hmiddle]
          exact (LineStarts.singleton '\n').append hrest fun _ _ => trivial
        · rintro z - c ⟨⟩
          exact ⟨by decide +kernel, by decide, by decide⟩
      · obtain ⟨rest, hrest⟩ := List.head?_eq_some_iff.1 hc
        exact hlines line c rest (by rw [hrest])
      · refine hlines (line ++ '\n' :: init) c rest ?_
        rw [hsplit]
        simp

private theorem escapeLineStart_concat (line : List Char) :
    escapeLineStart (line ++ ['!']) = escapeLineStart line ++ ['!'] := by
  cases line with
  | nil => rfl
  | cons c cs =>
    have hbang : isDigit '!' = false := by decide
    have htake : (c :: cs ++ ['!']).takeWhile isDigit = (c :: cs).takeWhile isDigit := by
      refine takeWhile_append_of_head? ?_ (c :: cs)
      rintro d ⟨⟩
      exact hbang
    unfold escapeLineStart
    rw [List.cons_append]
    dsimp only
    split
    · rfl
    · rw [← List.cons_append, htake, List.drop_append_of_le_length (List.takeWhile_prefix _).length_le]
      cases (c :: cs).drop ((c :: cs).takeWhile isDigit).length with
      | nil => simp
      | cons d rest =>
        dsimp only [List.cons_append]
        split <;> simp

private theorem join_escapeLines_concat (atx fresh : Bool) (init : List (List Char)) (line : List Char) :
    join ['\n'] (escapeLines atx fresh (init ++ [line ++ ['!']])) =
      join ['\n'] (escapeLines atx fresh (init ++ [line])) ++ ['!'] := by
  induction init generalizing fresh with
  | nil =>
    have hescape : escapeWhere (isSpecial atx) (line ++ ['!']) = escapeWhere (isSpecial atx) line ++ ['!'] := by
      rw [escapeWhere, List.flatMap_append]
      cases atx <;> rfl
    cases fresh with
    | false => exact hescape
    | true =>
      show escapeLineStart (escapeWhere (isSpecial atx) (line ++ ['!'])) = _
      rw [hescape]
      exact escapeLineStart_concat _
  | cons first init ih =>
    have hcons (last : List Char) : ∃ next lines, escapeLines atx true (init ++ [last]) = next :: lines := by
      cases init <;> exact ⟨_, _, rfl⟩
    obtain ⟨next, lines, hlines⟩ := hcons line
    obtain ⟨next', lines', hlines'⟩ := hcons (line ++ ['!'])
    have hrest := ih true
    rw [hlines, hlines'] at hrest
    rw [List.cons_append, List.cons_append, escapeLines, escapeLines, hlines, hlines', join_cons_cons, join_cons_cons,
      hrest, List.append_assoc, List.cons_append]

/-- An exclamation mark at the end of a text is not escaped. -/
private theorem escape_concat (fresh atx : Bool) (cs : List Char) :
    escape fresh atx (cs ++ ['!']) = escape fresh atx cs ++ ['!'] := by
  obtain ⟨init, line, hfields⟩ : ∃ init line, fields '\n' cs = init ++ [line] :=
    ⟨_, _, (List.dropLast_concat_getLast (fields_ne_nil '\n' cs)).symm⟩
  have hnewline := newline_notMem_fields cs
  rw [hfields, List.forall_mem_append, List.forall_mem_singleton] at hnewline
  have hjoin : join ['\n'] (init ++ [line ++ ['!']]) = cs ++ ['!'] := by
    rw [← join_fields '\n' cs, hfields]
    cases init with
    | nil => rfl
    | cons first init => rw [join_concat (by simp), join_concat (by simp), List.append_assoc, List.cons_append]
  rw [escape, escape, hfields, ← hjoin, fields_join (by simp), join_escapeLines_concat]
  rw [List.forall_mem_append, List.forall_mem_singleton]
  exact ⟨hnewline.1, by simpa using hnewline.2⟩

theorem getLast?_escape (fresh atx : Bool) (cs : List Char) : (escape fresh atx cs).getLast? = cs.getLast? := by
  have hlines : ∀ (fresh : Bool) (lines : List (List Char)), (∀ line ∈ lines, '\n' ∉ line) →
      (join ['\n'] (escapeLines atx fresh lines)).getLast? = (join ['\n'] lines).getLast? := by
    intro fresh lines
    induction lines generalizing fresh with
    | nil => exact fun _ => rfl
    | cons line lines ih =>
      intro hnewline
      obtain ⟨hline, hnext⟩ := List.forall_mem_cons.1 hnewline
      have hlast := (written_line fresh atx hline).getLast?_eq
      rw [escapeLines]
      cases lines with
      | nil => exact hlast
      | cons next lines =>
        have hrest := ih true hnext
        rw [escapeLines] at hrest ⊢
        rw [join_cons_cons, join_cons_cons, List.getLast?_append, List.getLast?_append, List.getLast?_cons,
          List.getLast?_cons, hrest]
        rfl
  rw [escape, hlines fresh _ (newline_notMem_fields cs), join_fields]

/-- A text is printed escaped, and an exclamation mark at its end once more before a link. -/
theorem textText_cases {fresh atx beforeLink : Bool} {value : String} {x : List Char}
    (h : textText fresh atx beforeLink (.text value) = .ok x) {cs : List Char}
    (hcs : (if atx then flatten value.toList else value.toList) = cs) :
    x = escape fresh atx cs ∧ (beforeLink = true → cs.getLast? ≠ some '!') ∨
      ∃ init, cs = init ++ ['!'] ∧ x = escape fresh atx init ++ ['\\', '!'] := by
  subst hcs
  generalize hvalue : (if atx then flatten value.toList else value.toList) = cs
  have hx : (if beforeLink && (escape fresh atx cs).getLast? == some '!' then
      (escape fresh atx cs).dropLast ++ ['\\', '!'] else escape fresh atx cs) = x := by
    rw [← hvalue]
    exact Except.ok.inj h
  rw [getLast?_escape] at hx
  split at hx
  · rename_i hlast
    rw [Bool.and_eq_true, beq_iff_eq] at hlast
    obtain ⟨init, rfl⟩ := List.getLast?_eq_some_iff.1 hlast.2
    rw [escape_concat, List.dropLast_concat] at hx
    exact .inr ⟨init, rfl, hx.symm⟩
  · rename_i hlast
    rw [Bool.and_eq_true, beq_iff_eq, not_and] at hlast
    exact .inl ⟨hx.symm, hlast⟩

section

variable {fresh beforeLink : Bool} {value : String} {x : List Char}
  (h : textText fresh false beforeLink (.text value) = .ok x)
include h

theorem getLast?_textText : x.getLast? = value.toList.getLast? := by
  rcases textText_cases h rfl with ⟨rfl, -⟩ | ⟨init, hinit, rfl⟩
  · exact getLast?_escape fresh false value.toList
  · have hvalue : value.toList = init ++ ['!'] := hinit
    rw [hvalue]
    simp

/-- No line of a printed text opens a block, whatever comes after the text but a number or the mark after one. -/
theorem lineStarts_textText (hfirst : fresh = true → ∀ c ∈ value.toList.head?, isBlank c = false)
    (hlines : ∀ init c rest, value.toList = init ++ '\n' :: c :: rest → isBlank c = false) :
    LineStarts Harmless Closes fresh x := by
  have hescape : LineStarts Harmless Closes fresh (escape fresh false value.toList) := by
    refine lineStarts_escapeLines fresh (newline_notMem_fields value.toList) ?_ ?_
    · rwa [join_fields]
    · rwa [join_fields]
  rcases textText_cases h rfl with ⟨rfl, -⟩ | ⟨init, hinit, rfl⟩
  · exact hescape
  · have hvalue : value.toList = init ++ ['!'] := hinit
    rw [hvalue, escape_concat] at hescape
    have hslash (rest : List Char) : Harmless ('\\' :: rest) :=
      .of_head rest (by decide) (by decide) (by decide) (by decide +kernel)
    refine hescape.of_prefix.append (.of_false (.of_notMem (by decide)) fun _ z _ => hslash _) ?_
    rintro z - c ⟨⟩
    exact ⟨by decide +kernel, by decide, by decide⟩

/-- A text that does not start with a blank is printed with something at its start that is no blank and no emphasis
mark. -/
theorem head?_textText (hne : value ≠ "") (hfirst : ∀ c ∈ value.toList.head?, isBlank c = false) :
    ∃ c ∈ x.head?, isBlank c = false ∧ c ∉ ['*', '_', '\x60'] ∧ (fresh = true → isLineMark c = false) := by
  obtain ⟨c, ds, hescape, hc⟩ : ∃ c ds, escape fresh false value.toList = c :: ds ∧ isBlank c = false ∧
      c ∉ ['*', '_', '\x60'] ∧ (fresh = true → isLineMark c = false) := by
    have hvalue := join_fields '\n' value.toList
    obtain ⟨line, lines, hlines⟩ := List.exists_cons_of_ne_nil (fields_ne_nil '\n' value.toList)
    rw [hlines] at hvalue
    have hline : ∃ c cs, line = c :: cs ∧ isBlank c = false := by
      cases line with
      | cons c cs =>
        refine ⟨c, cs, rfl, hfirst c ?_⟩
        rw [← hvalue]
        cases lines <;> simp [join]
      | nil =>
        cases lines with
        | nil => exact absurd hvalue.symm (by simpa [join] using hne)
        | cons next lines =>
          have hblank := hfirst '\n' (by rw [← hvalue, join_cons_cons]; rfl)
          cases hblank
    obtain ⟨c, cs, rfl, hc⟩ := hline
    have hstart : ∃ d ds, (if fresh then escapeLineStart (escapeWhere (isSpecial false) (c :: cs))
        else escapeWhere (isSpecial false) (c :: cs)) = d :: ds ∧ isBlank d = false ∧ d ∉ ['*', '_', '\x60'] ∧
          (fresh = true → isLineMark d = false) := by
      cases fresh with
      | false =>
        obtain ⟨d, ds, hescape, hblank, hmark⟩ := exists_cons_escapeWhere cs hc
        exact ⟨d, ds, hescape, hblank, hmark, fun hfresh => by cases hfresh⟩
      | true =>
        obtain ⟨d, hd, hblank, hline, hmark⟩ := (harmless_escapeLineStart cs hc).head
        obtain ⟨ds, hds⟩ := List.head?_eq_some_iff.1 hd
        exact ⟨d, ds, hds, hblank, hmark, fun _ => hline⟩
    obtain ⟨d, ds, hescape, hd⟩ := hstart
    obtain ⟨rest, hrest⟩ := exists_join_cons ['\n'] (d :: ds) (escapeLines false true lines)
    refine ⟨d, ds ++ rest, ?_, hd⟩
    rw [escape, hlines, escapeLines, hescape, hrest]
    rfl
  rcases textText_cases h rfl with ⟨rfl, -⟩ | ⟨init, hinit, rfl⟩
  · exact ⟨c, (congrArg List.head? hescape).trans rfl, hc⟩
  · have hvalue : value.toList = init ++ ['!'] := hinit
    rw [hvalue, escape_concat] at hescape
    cases hstart : escape fresh false init with
    | nil => exact ⟨'\\', rfl, by decide, by decide, fun _ => by decide⟩
    | cons d rest =>
      rw [hstart] at hescape
      obtain ⟨rfl, -⟩ := List.cons.inj hescape
      exact ⟨d, rfl, hc⟩

end

end MarkdownTree.Print
