import MarkdownTree.Print.Escape
import MarkdownTree.Proofs.LineTexts

/-!
# Escaped text

A text can be written in many ways that read back as it (`Written`): a backslash may stand before any mark that can be
escaped, and has to before those which start something.  Such a text reads as one text node (`erase_readInline`), and
as pieces of text wherever it stands (`readFrom_written`).  The printer escapes texts in one of these ways
(`written_escape`).
-/

namespace MarkdownTree.Scan

open Text Print

/-- The first text reads as plain text that says the second, in a marked heading or not. -/
inductive Written (atx : Bool) : List Char → List Char → Prop
  | nil : Written atx [] []
  | plain {c : Char} {cs value : List Char} (hc : isSpecial atx c = false) (hbreak : c = ' ' → cs.head? ≠ some '\n')
    (h : Written atx cs value) : Written atx (c :: cs) (c :: value)
  | escaped {c : Char} {cs value : List Char} (hc : isEscapable c = true) (h : Written atx cs value) :
    Written atx ('\\' :: c :: cs) (c :: value)

private theorem isSpecial_false_of {atx : Bool} {c : Char} (h : isSpecial atx c = false) :
    isSpecial false c = false := by
  unfold isSpecial at *
  simp_all

namespace Written

variable {atx : Bool} {cs ds value more : List Char}

theorem weaken (h : Written atx cs value) : Written false cs value := by
  induction h with
  | nil => exact .nil
  | plain hc hbreak _ ih => exact .plain (isSpecial_false_of hc) hbreak ih
  | escaped hc _ ih => exact .escaped hc ih

theorem append (h : Written atx cs value) (h' : Written atx ds more)
    (hbreak : cs.getLast? = some ' ' → ds.head? ≠ some '\n') : Written atx (cs ++ ds) (value ++ more) := by
  induction h with
  | nil => exact h'
  | @plain c cs value hc hnext _ ih =>
    refine .plain hc (fun heq => ?_) (ih fun hlast => hbreak ?_)
    · cases cs with
      | nil =>
        subst heq
        exact hbreak rfl
      | cons d cs => exact hnext heq
    · rw [List.getLast?_cons, hlast]
      rfl
  | @escaped c cs value hc _ ih =>
    refine .escaped hc (ih fun hlast => hbreak ?_)
    rw [List.getLast?_cons, List.getLast?_cons, hlast]
    rfl

theorem getLast?_eq (h : Written atx cs value) : cs.getLast? = value.getLast? := by
  induction h with
  | nil => rfl
  | plain _ _ _ ih => rw [List.getLast?_cons, List.getLast?_cons, ih]
  | escaped _ _ ih => rw [List.getLast?_cons, List.getLast?_cons, List.getLast?_cons, ih]; rfl

theorem split {word : List Char} (hword : ∀ c ∈ word, c ≠ '\\') (h : Written atx (word ++ cs) value) :
    ∃ rest, value = word ++ rest ∧ Written atx cs rest := by
  induction word generalizing value with
  | nil => exact ⟨value, rfl, h⟩
  | cons c word ih =>
    obtain ⟨hc, hword⟩ := List.forall_mem_cons.1 hword
    generalize heq : c :: word ++ cs = text at h
    cases h with
    | nil => cases heq
    | plain _ _ h =>
      obtain ⟨rfl, rfl⟩ := List.cons.inj heq
      obtain ⟨rest, rfl, hrest⟩ := ih hword h
      exact ⟨rest, rfl, hrest⟩
    | escaped => exact absurd (List.cons.inj heq).1 hc

end Written

/-! ### What the printer escapes -/

private theorem isEscapable_of_isSpecial {atx : Bool} {c : Char} (h : isSpecial atx c = true) :
    isEscapable c = true := by
  unfold isSpecial at h
  simp only [Bool.or_eq_true, Bool.and_eq_true, beq_iff_eq] at h
  rcases h with ((((((rfl | rfl) | rfl) | rfl) | rfl) | rfl) | rfl) | ⟨-, rfl⟩ <;> decide

private theorem isEscapable_of_isLineMark {c : Char} (h : isLineMark c = true) : isEscapable c = true := by
  unfold isLineMark at h
  simp only [Bool.or_eq_true, beq_iff_eq] at h
  rcases h with ((((rfl | rfl) | rfl) | rfl) | rfl) | rfl <;> decide

theorem written_escapeWhere (atx : Bool) {line : List Char} (h : '\n' ∉ line) :
    Written atx (escapeWhere (isSpecial atx) line) line := by
  induction line with
  | nil => exact .nil
  | cons c cs ih =>
    simp only [List.mem_cons, not_or] at h
    rw [escapeWhere, List.flatMap_cons]
    split
    · rename_i hc
      exact .escaped (isEscapable_of_isSpecial hc) (ih h.2)
    · rename_i hc
      refine .plain (Bool.not_eq_true _ ▸ hc) (fun _ hhead => ?_) (ih h.2)
      cases cs with
      | nil => cases hhead
      | cons d ds =>
        have hhead : ((if isSpecial atx d then ['\\', d] else [d]) ++ escapeWhere (isSpecial atx) ds).head? =
            some '\n' := hhead
        split at hhead
        · cases hhead
        · simp only [List.singleton_append, List.head?_cons, Option.some.injEq] at hhead
          exact h.2 (hhead ▸ .head _)

private theorem written_digits (atx : Bool) {ds : List Char} (h : ∀ c ∈ ds, isDigit c = true) : Written atx ds ds := by
  induction ds with
  | nil => exact .nil
  | cons c ds ih =>
    obtain ⟨hc, hds⟩ := List.forall_mem_cons.1 h
    refine .plain ?_ ?_ (ih hds)
    · refine Bool.eq_false_iff.2 fun hspecial => ?_
      unfold isSpecial at hspecial
      simp only [Bool.or_eq_true, Bool.and_eq_true, beq_iff_eq] at hspecial
      rcases hspecial with ((((((rfl | rfl) | rfl) | rfl) | rfl) | rfl) | rfl) | ⟨-, rfl⟩ <;>
        exact absurd hc (by decide)
    · rintro rfl
      exact absurd hc (by decide)

theorem written_escapeLineStart {atx : Bool} {line value : List Char} (h : Written atx line value) :
    Written atx (escapeLineStart line) value := by
  unfold escapeLineStart
  split
  · exact h
  · rename_i c cs
    split
    · rename_i hc
      cases h with
      | plain _ _ h => exact .escaped (isEscapable_of_isLineMark hc) h
      | escaped => exact absurd hc (by decide)
    · dsimp only
      split
      · rename_i d rest hdrop
        split
        · rename_i hcond
          have hline := takeWhile_append_drop isDigit (c :: cs)
          rw [hdrop] at hline
          have hdigits : ∀ x ∈ (c :: cs).takeWhile isDigit, isDigit x = true := fun x hx => List.mem_takeWhile_imp hx
          rw [← hline] at h
          obtain ⟨more, rfl, hmore⟩ := h.split fun x hx hslash => by
            have := hdigits x hx
            rw [hslash] at this
            exact absurd this (by decide)
          have hd : d ≠ '\\' ∧ isEscapable d = true := by
            rcases hcond.2.2 with rfl | rfl <;> decide
          cases hmore with
          | plain _ _ hmore =>
            refine (written_digits atx hdigits).append (.escaped hd.2 hmore) fun _ => ?_
            simp
          | escaped => exact absurd rfl hd.1
        · exact h
      · exact h

theorem written_escapeLines (atx atStart : Bool) {lines : List (List Char)} (hnewline : ∀ line ∈ lines, '\n' ∉ line)
    (hspace : ∀ line ∈ lines.dropLast, line.getLast? ≠ some ' ') :
    Written atx (join ['\n'] (escapeLines atx atStart lines)) (join ['\n'] lines) := by
  induction lines generalizing atStart with
  | nil => exact .nil
  | cons line lines ih =>
    obtain ⟨hline, hlines⟩ := List.forall_mem_cons.1 hnewline
    have hfirst : Written atx (if atStart then escapeLineStart (escapeWhere (isSpecial atx) line)
        else escapeWhere (isSpecial atx) line) line := by
      split
      · exact written_escapeLineStart (written_escapeWhere atx hline)
      · exact written_escapeWhere atx hline
    rw [escapeLines]
    cases lines with
    | nil => exact hfirst
    | cons next lines =>
      obtain ⟨hend, hends⟩ := List.forall_mem_cons.1 hspace
      have hrest := ih true hlines hends
      rw [escapeLines] at hrest ⊢
      rw [join_cons_cons, join_cons_cons]
      exact hfirst.append (.plain (by cases atx <;> rfl) (fun h => absurd h (by decide)) hrest)
        fun hlast => absurd (hfirst.getLast?_eq ▸ hlast) hend

private theorem infix_of_mem_dropLast {lines : List (List Char)} {line : List Char} (h : line ∈ lines.dropLast) :
    line ++ ['\n'] <:+: join ['\n'] lines := by
  induction lines with
  | nil => cases h
  | cons first lines ih =>
    cases lines with
    | nil => cases h
    | cons next lines =>
      rw [join_cons_cons]
      rcases List.mem_cons.1 h with rfl | h
      · exact ⟨[], join ['\n'] (next :: lines), by simp⟩
      · exact (ih h).trans ((List.suffix_cons '\n' _).trans (List.suffix_append first _)).isInfix

/-- A text without spaces before its line feeds is written when it is escaped. -/
theorem written_escape (atStart atx : Bool) {cs : List Char} (h : ¬[' ', '\n'] <:+: cs) :
    Written atx (escape atStart atx cs) cs := by
  have hspace : ∀ line ∈ (fields '\n' cs).dropLast, line.getLast? ≠ some ' ' := by
    intro line hline hlast
    obtain ⟨init, rfl⟩ := List.getLast?_eq_some_iff.1 hlast
    have hinfix := infix_of_mem_dropLast hline
    rw [join_fields, List.append_assoc] at hinfix
    exact h ((List.suffix_append init _).isInfix.trans hinfix)
  have hwritten := written_escapeLines atx atStart (newline_notMem_fields cs) hspace
  rwa [join_fields] at hwritten

/-! ### Reading it -/

namespace Written

variable {cs value : List Char}

theorem head?_cases (h : Written false cs value) : ∀ c ∈ cs.head?, c = '\\' ∨ c ∈ value.head? := by
  rintro c hc
  cases h with
  | nil => cases hc
  | plain => exact .inr hc
  | escaped =>
    cases hc
    exact .inl rfl

theorem head?_ne (h : Written false cs value) {c : Char} (hc : isSpecial false c = true) (hslash : c ≠ '\\') :
    cs.head? ≠ some c := by
  cases h with
  | nil => simp
  | @plain d cs value hd =>
    rintro heq
    obtain rfl := Option.some.inj heq
    rw [hc] at hd
    cases hd
  | escaped => simpa using hslash.symm

private theorem getLast?_ne {word : List Char} (h : Written false (word ++ '\n' :: cs) value) :
    word.getLast? ≠ some ' ' := by
  generalize hd : (word ++ '\n' :: cs) = text at h
  induction h generalizing word with
  | nil => simp at hd
  | @plain c text value hc hbreak _ ih =>
    cases word with
    | nil => simp
    | cons d word =>
      obtain ⟨rfl, rfl⟩ := List.cons.inj hd
      cases word with
      | nil =>
        intro hlast
        exact hbreak (by simpa using hlast) rfl
      | cons e word => exact fun hlast => ih rfl (by simpa using hlast)
  | @escaped c text value hc _ ih =>
    cases word with
    | nil => simp
    | cons d word =>
      obtain ⟨rfl, htail⟩ := List.cons.inj hd
      cases word with
      | nil => simp
      | cons e word =>
        obtain ⟨rfl, rfl⟩ := List.cons.inj htail
        cases word with
        | nil =>
          intro hlast
          have heq : e = ' ' := by simpa using hlast
          rw [heq] at hc
          exact absurd hc (by decide)
        | cons f word => exact fun hlast => ih rfl (by simpa using hlast)

end Written

/-- What comes behind a text starts with nothing that a text goes on with. -/
def EndsText (rest : List Char) : Prop :=
  ∀ c ∈ rest.head?, isPlain c = false ∧ c ≠ ' ' ∧ c ≠ '\n'

section

variable {rest : List Char} (hrest : EndsText rest)
include hrest

private theorem readSpaces_written {cs value : List Char} (h : Written false (' ' :: cs) value) (r : Reading)
    (index : Nat) :
    ∃ start stop word more taken, readSpaces r index (cs ++ rest) = (r.push (.text start stop word), taken) ∧
      taken ≤ cs.length ∧ value = word ++ more ∧ Written false (cs.drop taken) more := by
  have htake := takeWhile_append_of_head? (p := (· == ' ')) (fun c hc => by simpa using (hrest c hc).2.1) cs
  have hlength : (cs.takeWhile (· == ' ')).length ≤ cs.length := (List.takeWhile_prefix _).length_le
  have hspaces : ∀ x ∈ ' ' :: cs.takeWhile (· == ' '), x = ' ' :=
    List.forall_mem_cons.2 ⟨rfl, fun x hx => by simpa using List.mem_takeWhile_imp hx⟩
  have hcs : ' ' :: cs = (' ' :: cs.takeWhile (· == ' ')) ++ cs.drop (cs.takeWhile (· == ' ')).length := by
    rw [List.cons_append, takeWhile_append_drop]
  rw [hcs] at h
  have hword : ' ' :: cs.takeWhile (· == ' ') = List.replicate ((cs.takeWhile (· == ' ')).length + 1) ' ' :=
    List.eq_replicate_iff.2 ⟨rfl, hspaces⟩
  have hlast : (' ' :: cs.takeWhile (· == ' ')).getLast? = some ' ' := by
    rw [hword, List.getLast?_replicate, if_neg (Nat.succ_ne_zero _)]
  obtain ⟨more, rfl, hmore⟩ := h.split fun x hx => by rw [hspaces x hx]; decide
  refine ⟨index, index + ((cs.takeWhile (· == ' ')).length + 1), _, more, _, ?_, hlength, rfl, hmore⟩
  unfold readSpaces
  dsimp only
  rw [htake, List.drop_append_of_le_length hlength]
  split
  · rename_i after hdrop
    -- The line feed would be in the text, or come behind it.
    cases htail : cs.drop (cs.takeWhile (· == ' ')).length with
    | nil =>
      rw [htail, List.nil_append] at hdrop
      exact absurd rfl (hrest '\n' (by rw [hdrop]; rfl)).2.2
    | cons c tail =>
      rw [htail] at hdrop h
      obtain ⟨rfl, -⟩ := List.cons.inj hdrop
      exact absurd hlast h.getLast?_ne
  · rw [Reading.pushText, ← hword]

/-- A step takes a part of a text that is written, and makes a piece of text of it. -/
private theorem readStep_written {c : Char} {cs value : List Char} (h : Written false (c :: cs) value)
    (hbang : (c :: cs).getLast? = some '!' → rest.head? ≠ some '[') (r : Reading) (index : Nat) (before : Char) :
    ∃ start stop word more taken, readStep r index before c (cs ++ rest) = (r.push (.text start stop word), taken) ∧
      taken ≤ cs.length ∧ value = word ++ more ∧ Written false (cs.drop taken) more := by
  cases h with
  | @escaped d ds more hd hmore =>
    have hne : d ≠ '\n' := by
      rintro rfl
      exact absurd hd (by decide)
    refine ⟨index, index + 2, [d], more, 1, ?_, by simp, rfl, hmore⟩
    rw [readStep, if_pos rfl, List.cons_append]
    unfold readEscape
    split
    · rename_i heq
      exact absurd (List.cons.inj heq).1 hne
    · rename_i heq
      obtain ⟨rfl, rfl⟩ := List.cons.inj heq
      rw [if_pos hd]
      rfl
    · rename_i heq
      cases heq
  | @plain _ _ more hc hbreak hmore =>
    unfold isSpecial at hc
    simp only [Bool.or_eq_false_iff, Bool.and_eq_false_imp, beq_eq_false_iff_ne] at hc
    obtain ⟨⟨⟨⟨⟨⟨⟨hslash, htick⟩, hstar⟩, hunder⟩, hopen⟩, hclose⟩, hangle⟩, -⟩ := hc
    rw [readStep, if_neg hslash]
    by_cases hspace : c = ' '
    · subst hspace
      rw [if_pos rfl]
      exact readSpaces_written hrest (.plain rfl hbreak hmore) r index
    · rw [if_neg hspace]
      by_cases hnewline : c = '\n'
      · rw [if_pos hnewline]
        exact ⟨_, _, ['\n'], more, 0, rfl, Nat.zero_le _, by rw [hnewline]; rfl, hmore⟩
      rw [if_neg hnewline, if_neg htick, if_neg (by simp [hstar, hunder])]
      by_cases hmark : c = '!'
      · have hnext : (cs ++ rest).head? ≠ some '[' := by
          cases cs with
          | nil => exact hbang (by rw [hmark]; rfl)
          | cons d ds => exact hmore.head?_ne rfl (by decide)
        rw [if_pos hmark, if_neg hnext]
        exact ⟨_, _, ['!'], more, 0, rfl, Nat.zero_le _, by rw [hmark]; rfl, hmore⟩
      rw [if_neg hmark, if_neg hopen, if_neg hclose, if_neg hangle]
      have hcs := takeWhile_append_drop isPlain cs
      rw [← hcs] at hmore
      obtain ⟨after, rfl, hafter⟩ := hmore.split fun x hx hx' => by
        have := List.mem_takeWhile_imp hx
        rw [hx'] at this
        exact absurd this (by decide)
      rw [takeWhile_append_of_head? fun d hd => (hrest d hd).1]
      exact ⟨_, _, c :: cs.takeWhile isPlain, after, (cs.takeWhile isPlain).length, rfl,
        (List.takeWhile_prefix _).length_le, rfl, hafter⟩

end

/-- Pieces of text that say a value. -/
inductive Says : List Piece → List Char → Prop
  | nil : Says [] []
  | cons {ps : List Piece} {value : List Char} (start stop : Nat) (word : List Char) (h : Says ps value) :
    Says (.text start stop word :: ps) (word ++ value)

/-- A text that is written is read as pieces that say it, and what comes behind it is read from there on. -/
theorem readFrom_written {rest : List Char} (hrest : EndsText rest) {cs value : List Char} (h : Written false cs value)
    (hbang : cs.getLast? = some '!' → rest.head? ≠ some '[') (r : Reading) (index : Nat) (before : Char) :
    ∃ ps index' before', Says ps value ∧
      readFrom r index before (cs ++ rest) = readFrom ⟨ps.reverse ++ r.pieces, r.notes⟩ index' before' rest := by
  cases cs with
  | nil =>
    cases h
    exact ⟨[], index, before, .nil, rfl⟩
  | cons c cs =>
    obtain ⟨start, stop, word, more, taken, hstep, htaken, rfl, hmore⟩ := readStep_written hrest h hbang r index before
    have hlast : (cs.drop taken).getLast? = some '!' → rest.head? ≠ some '[' := by
      rw [List.getLast?_drop]
      split
      · exact fun hnone => by cases hnone
      · intro hend
        exact hbang (by rw [List.getLast?_cons, hend]; rfl)
    obtain ⟨ps, index', before', hps, hread⟩ := readFrom_written hrest hmore hlast (r.push (.text start stop word))
      (index + taken + 1) (((cs ++ rest).take taken).getLast?.getD c)
    refine ⟨.text start stop word :: ps, index', before', hps.cons start stop word, ?_⟩
    rw [List.cons_append, readFrom, hstep]
    dsimp only
    rw [List.drop_append_of_le_length htaken, hread, List.reverse_cons, List.append_assoc]
    rfl
termination_by cs.length

/-! ### Pieces that stay as they are -/

/-- A piece that neither pairs with another nor opens anything. -/
def Piece.IsFinished : Piece → Prop
  | .text .. | .node .. => True
  | _ => False

theorem resolve_of_finished {ps : List Piece} (h : ∀ p ∈ ps, p.IsFinished) : Emphasis.resolve ps = ps := by
  have hresolve : ∀ before, Emphasis.resolveFrom before ps = before.reverse ++ ps := by
    induction ps with
    | nil =>
      intro before
      rw [Emphasis.resolveFrom, List.append_nil]
    | cons p ps ih =>
      obtain ⟨hp, hps⟩ := List.forall_mem_cons.1 h
      intro before
      rw [Emphasis.resolveFrom, ih hps, List.reverse_cons, List.append_assoc]
      · rfl
      · rintro r rfl
        exact hp
  exact hresolve []

theorem Says.finished {ps : List Piece} {value : List Char} (h : Says ps value) : ∀ p ∈ ps, p.IsFinished := by
  induction h with
  | nil => exact List.forall_mem_nil _
  | cons _ _ _ _ ih => exact List.forall_mem_cons.2 ⟨trivial, ih⟩

/-- Pieces that say a value go on a row of words with the value. -/
theorem Says.merge {ps : List Piece} {value : List Char} (h : Says ps value) (pending : List (Span × List Char))
    (qs : List Piece) :
    ∃ words, Piece.merge pending (Piece.parts (ps ++ qs)) = Piece.merge (words ++ pending) (Piece.parts qs) ∧
      words.reverse.flatMap (·.2) = value := by
  induction h generalizing pending with
  | nil => exact ⟨[], rfl, rfl⟩
  | cons start stop word _ ih =>
    obtain ⟨words, hmerge, rfl⟩ := ih ((⟨start, stop⟩, word) :: pending)
    refine ⟨words ++ [(⟨start, stop⟩, word)], ?_, ?_⟩
    · rw [List.cons_append, Piece.parts, Piece.part, Piece.merge, hmerge, List.append_assoc]
      rfl
    · simp

theorem erase_textNode {words : List (Span × List Char)} (hne : words.reverse.flatMap (·.2) ≠ []) :
    (Piece.textNode words).map Tree.erase = [.node () (.text (String.ofList (words.reverse.flatMap (·.2)))) []] := by
  cases words with
  | nil => exact absurd rfl hne
  | cons word words =>
    rw [Piece.textNode, List.map_singleton, Tree.erase_node]
    rfl

/-- A text that is written reads as one text node with its value. -/
theorem erase_readInline {cs value : List Char} (h : Written false cs value) (hne : value ≠ []) :
    (readInline cs).trees.map Tree.erase = [.node () (.text (String.ofList value)) []] := by
  have hends : EndsText [] := by simp [EndsText]
  obtain ⟨ps, index, before, hps, hread⟩ := readFrom_written hends h (by simp) ⟨[], []⟩ 0 ' '
  obtain ⟨words, hmerge, rfl⟩ := hps.merge [] []
  rw [List.append_nil, List.append_nil] at hmerge
  have htrees : (readInline cs).trees = Piece.textNode words := by
    rw [readInline, readPieces]
    dsimp only
    rw [← List.append_nil cs, hread, readFrom, List.append_nil, List.reverse_reverse, resolve_of_finished hps.finished,
      Piece.trees]
    exact hmerge
  rw [htrees, erase_textNode hne]

end MarkdownTree.Scan
