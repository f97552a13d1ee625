import MarkdownTree.Proofs.Inline
import MarkdownTree.Proofs.Spelling

/-!
# What pieces lean on

The pieces of inline content say the same as the text at their ends (`Piece.Anchored`): a word starts with a blank only
where the text does, ends as the text does, and has no space before the end of a line, which is a word of its own; no
backtick follows code; a run that can open emphasis has something that is not blank after it, and one that can close it
has that before it.  So emphasis leans on its content at both ends.  Reading takes steps that make anchored pieces
(`anchored_readStep`), and resolving emphasis keeps them anchored (`anchored_resolve`), so the pieces of a text are
anchored in the end (`anchored_resolve_readPieces`).
-/

namespace MarkdownTree.Scan

open Text

/-- Something that is not blank stands at a place of a text. -/
def Visible (text : List Char) (i : Nat) : Prop :=
  ∃ c, text[i]? = some c ∧ isBlank c = false

/-- A character stands just before a place of a text. -/
def EndsWith (text : List Char) (i : Nat) (c : Char) : Prop :=
  ∃ j, j + 1 = i ∧ text[j]? = some c

/-- A line ends just before a place of a text. -/
def EndsLine (text : List Char) (i : Nat) : Prop :=
  EndsWith text i '\n'

/-- A word that starts and ends like the text where it stands: only a space or a line feed stands where a line ends, and
neither of them behind a space. -/
structure WordAnchored (text : List Char) (start stop : Nat) (value : List Char) : Prop where
  head : Visible text start → ∀ c ∈ value.head?, isBlank c = false
  last : ∀ c ∈ value.getLast?, EndsWith text stop c
  newline : '\n' ∈ value → value = ['\n'] ∧ (text[start]? = some ' ' ∨ text[start]? = some '\n')
  space : value.getLast? = some ' ' → ∀ c ∈ text[stop]?, c ≠ ' ' ∧ c ≠ '\n'

/-- A run that stands in a text, and leans on what it says it leans on. -/
structure Run.Anchored (text : List Char) (r : Run) : Prop where
  mark : isBlank r.mark = false
  size : r.stop = r.start + r.count
  marks : ∀ i, r.start ≤ i → i < r.stop → text[i]? = some r.mark
  opens : r.canOpen = true → Visible text r.stop
  closes : r.canClose = true → ∃ i, i + 1 = r.start ∧ Visible text i

namespace Piece

mutual

/-- A piece says the same as the text at its ends. -/
def Anchored (text : List Char) : Piece → Prop
  | .text start stop value => WordAnchored text start stop value
  | .run r => r.Anchored text
  | .opener start stop image _ => WordAnchored text start stop (bracket image)
  | .node start stop content children =>
    (∀ width ∈ content.width?, Visible text (start + width) ∧ ∃ i, i + width + 1 = stop ∧ Visible text i) ∧
      (content = .lineBreak → EndsLine text stop) ∧
        (content.kind = .inlineCode → text[start]? = some '\x60' ∧ text[stop]? ≠ some '\x60') ∧
          AnchoredList text children

/-- So do all pieces of a row. -/
def AnchoredList (text : List Char) : List Piece → Prop
  | [] => True
  | p :: ps => Anchored text p ∧ AnchoredList text ps

end

theorem anchoredList_iff {text : List Char} {ps : List Piece} :
    AnchoredList text ps ↔ ∀ p ∈ ps, Anchored text p := by
  induction ps with
  | nil => simp [AnchoredList]
  | cons p ps ih => simp [AnchoredList, ih]

end Piece

open Piece

variable {text : List Char}

/-- A line feed is blank, so what is visible does not end a line. -/
theorem Visible.not_endsLine {i : Nat} (h : Visible text i) : ¬EndsLine text (i + 1) := by
  rintro ⟨j, hj, hnewline⟩
  obtain rfl : j = i := by omega
  obtain ⟨c, hc, hblank⟩ := h
  rw [hc] at hnewline
  cases hnewline
  cases hblank

private theorem isBlank_of_isEscapable {c : Char} (h : isEscapable c = true) : isBlank c = false := by
  have hn : (33 ≤ c.toNat ∧ c.toNat ≤ 47) ∨ (58 ≤ c.toNat ∧ c.toNat ≤ 64) ∨ (91 ≤ c.toNat ∧ c.toNat ≤ 96) ∨
      (123 ≤ c.toNat ∧ c.toNat ≤ 126) := by
    simpa [isEscapable, or_assoc] using h
  by_contra hblank
  rw [Bool.not_eq_false, isBlank, inRanges_iff] at hblank
  simp only [blankRanges, List.mem_cons, List.not_mem_nil, or_false, exists_eq_or_imp, exists_eq_left] at hblank
  omega

namespace WordAnchored

variable {index start stop : Nat} {value cs : List Char} {c : Char}

/-- A word of the text itself. -/
private theorem of_prefix (hrest : text.drop index = cs) (hvalue : value <+: cs) (h : '\n' ∉ value)
    (hspace : value.getLast? = some ' ' → ∀ c ∈ (cs.drop value.length).head?, c ≠ ' ' ∧ c ≠ '\n') :
    WordAnchored text index (index + value.length) value := by
  obtain ⟨more, rfl⟩ := hvalue
  refine ⟨fun hvisible c hc => ?_, fun c hc => ?_, fun hmem => absurd hmem h, fun hlast c hc => hspace hlast c ?_⟩
  · obtain ⟨d, hd, hblank⟩ := hvisible
    rw [← List.head?_drop, hrest, List.head?_append, Option.mem_def.1 hc] at hd
    cases hd
    exact hblank
  · obtain ⟨init, rfl⟩ := List.getLast?_eq_some_iff.1 hc
    refine ⟨index + init.length, by simp [Nat.add_assoc], ?_⟩
    rw [← List.getElem?_drop, hrest, List.append_assoc, List.getElem?_append_right (Nat.le_refl _), Nat.sub_self]
    rfl
  · rwa [← List.getElem?_drop, hrest, ← List.head?_drop] at hc

/-- One character that is not blank, at its own place or behind a backslash. -/
private theorem of_char (hc : isBlank c = false) (h : EndsWith text stop c) : WordAnchored text start stop [c] := by
  refine ⟨fun _ d hd => ?_, fun d hd => ?_, fun hmem => ?_, fun hlast => ?_⟩
  · cases hd
    exact hc
  · cases hd
    exact h
  · obtain rfl := List.mem_singleton.1 hmem
    cases hc
  · cases hlast
    cases hc

/-- A line feed at the end of a line. -/
private theorem of_newline (hstart : text[start]? = some ' ' ∨ text[start]? = some '\n') (hstop : EndsLine text stop) :
    WordAnchored text start stop ['\n'] := by
  refine ⟨?_, fun d hd => ?_, fun _ => ⟨rfl, hstart⟩, fun hlast => by cases hlast⟩
  · rintro ⟨c, hc, hblank⟩
    rw [hc] at hstart
    rcases hstart with hstart | hstart
    · cases hstart
      cases hblank
    · cases hstart
      cases hblank
  · cases hd
    exact hstop

end WordAnchored

/-! ### Resolving emphasis -/

namespace Run.Anchored

variable {r : Run} {n : Nat}

private theorem takeEnd (h : r.Anchored text) (hpos : 0 < n) (hn : n ≤ r.count) : (r.takeEnd n).Anchored text := by
  have hsize := h.size
  refine ⟨h.mark, ?_, fun i hstart hstop => h.marks i hstart ?_, fun _ => ⟨r.mark, h.marks _ ?_ ?_, h.mark⟩, h.closes⟩
  · simp only [Run.takeEnd]
    omega
  · simp only [Run.takeEnd] at hstop
    omega
  · simp only [Run.takeEnd]
    omega
  · simp only [Run.takeEnd]
    omega

private theorem takeStart (h : r.Anchored text) (hpos : 0 < n) (hn : n ≤ r.count) : (r.takeStart n).Anchored text := by
  have hsize := h.size
  refine ⟨h.mark, ?_, fun i hstart hstop => h.marks i ?_ hstop, h.opens, fun _ => ?_⟩
  · simp only [Run.takeStart]
    omega
  · simp only [Run.takeStart] at hstart
    omega
  · refine ⟨r.start + n - 1, ?_, r.mark, h.marks _ ?_ ?_, h.mark⟩
    · simp only [Run.takeStart]
      omega
    · omega
    · omega

/-- A run is a word where it stays text. -/
theorem word (h : r.Anchored text) (hpos : 0 < r.count) : WordAnchored text r.start r.stop r.text := by
  have hsize := h.size
  refine ⟨fun _ c hc => ?_, fun c hc => ⟨r.stop - 1, by omega, ?_⟩, fun hmem => ?_, fun hlast => ?_⟩
  · rw [List.eq_of_mem_replicate (List.mem_of_head? hc)]
    exact h.mark
  · rw [List.eq_of_mem_replicate (List.mem_of_getLast? hc)]
    exact h.marks _ (by omega) (by omega)
  · have hmark := h.mark
    rw [← List.eq_of_mem_replicate hmem] at hmark
    cases hmark
  · have hmark := h.mark
    rw [← List.eq_of_mem_replicate (List.mem_of_getLast? hlast)] at hmark
    cases hmark

end Run.Anchored

private theorem anchored_remains {r : Run} (h : r.Anchored text) : ∀ p ∈ Emphasis.remains r, Anchored text p := by
  intro p hp
  unfold Emphasis.remains at hp
  split at hp
  · cases hp
  · rw [List.mem_singleton.1 hp]
    exact h

/-- A step keeps pieces anchored: the node leans on what stands between its runs, as these did. -/
private theorem Emphasis.Paired.anchored {given ps qs : List Piece} (h : Paired given ps qs)
    (hps : ∀ p ∈ ps, Anchored text p) :
    ∀ p ∈ qs, Anchored text p := by
  obtain ⟨-, ho, hc, hmatch, hopen, hclose, hn, -⟩ := h
  rename_i opener closer o c n
  simp only [List.forall_mem_append, List.forall_mem_cons] at hps ⊢
  obtain ⟨hbefore, hopener, hbetween, hcloser, hafter⟩ := hps
  have hopener : opener.Anchored text := hopener
  have hcloser : closer.Anchored text := hcloser
  have hpos : 0 < n := by omega
  have hsize := hopener.size
  refine ⟨hbefore, anchored_remains (hopener.takeEnd hpos hopen), ⟨?_, ?_, ?_, anchoredList_iff.2 hbetween⟩,
    anchored_remains (hcloser.takeStart hpos hclose), hafter⟩
  · intro width hwidth
    obtain rfl : n = width := by
      rcases hn with rfl | ⟨rfl, -⟩
      · exact Option.some.inj hwidth
      · exact Option.some.inj hwidth
    have hstart : opener.stop - n + n = opener.stop := by omega
    obtain ⟨i, hi, hvisible⟩ := hcloser.closes (hc.canClose.trans hmatch.canClose)
    rw [hstart]
    exact ⟨hopener.opens (ho.canOpen.trans hmatch.canOpen), i, by omega, hvisible⟩
  · intro hbreak
    split at hbreak
    · cases hbreak
    · cases hbreak
  · intro hcode
    split at hcode
    · cases hcode
    · cases hcode

/-- Resolving emphasis keeps pieces anchored. -/
theorem anchored_resolve {ps : List Piece} (h : ∀ p ∈ ps, Anchored text p) :
    ∀ p ∈ Emphasis.resolve ps, Anchored text p := by
  have hsteps := Emphasis.reflTransGen_resolve ps
  generalize Emphasis.resolve ps = qs at hsteps
  induction hsteps with
  | refl => exact h
  | tail _ hstep ih => exact hstep.anchored ih

/-! ### Reading -/

/-- All pieces that have been read are anchored. -/
def Reading.Anchored (text : List Char) (r : Reading) : Prop :=
  ∀ p ∈ r.pieces, Piece.Anchored text p

/-- The character before a place, or a blank at the start. -/
def Precedes (text : List Char) (before : Char) (index : Nat) : Prop :=
  isBlank before = false → ∃ i, i + 1 = index ∧ text[i]? = some before

section

variable {r : Reading} {index : Nat} {c : Char} {cs : List Char}

private theorem Reading.Anchored.push {p : Piece} (h : r.Anchored text) (hp : Piece.Anchored text p) :
    (r.push p).Anchored text :=
  List.forall_mem_cons.2 ⟨hp, h⟩

/-- A run of one character goes on as far as that character does. -/
theorem getElem?_of_run (hrest : text.drop index = c :: cs) {i : Nat} (hstart : index ≤ i)
    (hstop : i < index + ((cs.takeWhile (· == c)).length + 1)) : text[i]? = some c := by
  have hrun := takeWhile_beq c cs
  generalize (cs.takeWhile (· == c)).length = n at hrun hstop
  obtain ⟨k, rfl⟩ := Nat.exists_eq_add_of_le hstart
  cases k with
  | zero => rw [Nat.add_zero, ← List.head?_drop, hrest, List.head?_cons]
  | succ k =>
    have hcs := List.takeWhile_append_dropWhile (p := (· == c)) (l := cs)
    rw [← Nat.add_assoc, getElem?_index_add hrest, ← hcs, hrun, List.getElem?_append_left (by simp; omega),
      List.getElem?_replicate, if_pos (by omega)]

private theorem replicate_prefix_cons (c : Char) (cs : List Char) :
    List.replicate ((cs.takeWhile (· == c)).length + 1) c <+: c :: cs := by
  rw [List.replicate_succ, ← takeWhile_beq]
  exact (List.prefix_cons_inj c).2 (List.takeWhile_prefix _)

/-- A character that is not blank is a word. -/
private theorem anchored_char (h : r.Anchored text) (hc : isBlank c = false) (hrest : text.drop index = c :: cs) :
    (r.pushText index 1 [c]).Anchored text :=
  h.push (WordAnchored.of_char hc ⟨index, rfl, getElem?_index hrest⟩)

/-- A leaf that is no break, code or emphasis. -/
private theorem anchored_leaf {start stop : Nat} {content : Content} (hwidth : content.width? = none)
    (hbreak : content ≠ .lineBreak) (hcode : content.kind ≠ .inlineCode) :
    Piece.Anchored text (.node start stop content []) := by
  refine ⟨fun width h => ?_, fun h => absurd h hbreak, fun h => absurd h hcode, trivial⟩
  rw [hwidth] at h
  cases h

private theorem anchored_code {start stop : Nat} {value : String} (hstart : text[start]? = some '\x60')
    (hstop : text[stop]? ≠ some '\x60') : Piece.Anchored text (.node start stop (.inlineCode value) []) := by
  refine ⟨fun width h => ?_, fun h => ?_, fun _ => ⟨hstart, hstop⟩, trivial⟩
  · cases h
  · cases h

private theorem anchored_break {start stop : Nat} (h : EndsLine text stop) :
    Piece.Anchored text (.node start stop .lineBreak []) := by
  refine ⟨fun width hwidth => ?_, fun _ => h, fun hcode => ?_, trivial⟩
  · cases hwidth
  · cases hcode

private theorem anchored_readEscape (h : r.Anchored text) (hrest : text.drop index = '\\' :: cs) :
    (readEscape r index cs).1.Anchored text := by
  have hslash := anchored_char h (by decide) hrest
  unfold readEscape
  split
  · refine h.push (anchored_break ⟨index + 1, rfl, ?_⟩)
    exact getElem?_index_add hrest 0
  · rename_i d _ _
    split
    · rename_i hescapable
      exact h.push (WordAnchored.of_char (isBlank_of_isEscapable hescapable) ⟨index + 1, rfl, getElem?_index_add hrest 0⟩)
    · exact hslash
  · exact hslash

private theorem anchored_readSpaces (h : r.Anchored text) (hrest : text.drop index = ' ' :: cs) :
    (readSpaces r index cs).1.Anchored text := by
  unfold readSpaces
  dsimp only
  split
  · rename_i rest hdrop
    have hnewline : cs[(cs.takeWhile (· == ' ')).length]? = some '\n' := by
      rw [← List.head?_drop, hdrop]
      rfl
    split
    · exact h.push (anchored_break ⟨_, rfl, (getElem?_index_add hrest _).trans hnewline⟩)
    · rename_i hmore
      have hzero : (cs.takeWhile (· == ' ')).length = 0 := by omega
      rw [hzero] at hnewline
      refine h.push (WordAnchored.of_newline (.inl (getElem?_index hrest)) ⟨_, rfl, ?_⟩)
      exact (getElem?_index_add hrest 0).trans hnewline
  · rename_i hdrop
    -- All spaces are taken, and no line feed comes behind them.
    have hword := WordAnchored.of_prefix hrest (replicate_prefix_cons ' ' cs) (by simp) fun _ c hc => by
      rw [List.length_replicate, List.drop_succ_cons] at hc
      refine ⟨?_, ?_⟩
      · rintro rfl
        have hnot := List.head?_dropWhile_not (· == ' ') cs
        rw [← drop_length_takeWhile, Option.mem_def.1 hc] at hnot
        cases hnot
      · rintro rfl
        obtain ⟨rest, hrest⟩ := List.head?_eq_some_iff.1 hc
        exact hdrop rest hrest
    rw [List.length_replicate] at hword
    exact h.push hword

private theorem anchored_readCode (h : r.Anchored text) (hrest : text.drop index = '\x60' :: cs) :
    (readCode r index cs).1.Anchored text := by
  unfold readCode
  dsimp only
  split
  · rename_i body hbody
    obtain ⟨rest, hcs, hhead⟩ := CodeSpan.body?_eq_some hbody
    refine h.push (anchored_code (getElem?_index hrest) ?_)
    -- The span stops where the closing run does.
    have hlength := congrArg List.length hcs
    have hstop : index + 2 * (CodeSpan.ticks cs + 1) + body.length =
        index + (CodeSpan.ticks cs + (body.length + (CodeSpan.ticks cs + 1))) + 1 := by omega
    rw [hstop, getElem?_index_add hrest, ← List.getElem?_drop, hcs, List.getElem?_append_right (by omega),
      List.getElem?_append_right (by simp)]
    simpa [List.head?_eq_getElem?] using hhead
  · have hlast : (List.replicate (CodeSpan.ticks cs + 1) '\x60').getLast? ≠ some ' ' := by
      intro hlast
      cases List.eq_of_mem_replicate (List.mem_of_getLast? hlast)
    have hword := WordAnchored.of_prefix hrest (replicate_prefix_cons '\x60' cs) (by simp) fun hspace => absurd hspace hlast
    rw [List.length_replicate] at hword
    exact Reading.Anchored.push h hword

private theorem anchored_readRun {before : Char} (h : r.Anchored text) (hrest : text.drop index = c :: cs)
    (hmark : c = '*' ∨ c = '_') (hbefore : Precedes text before index) :
    (readRun r index before c cs).1.Anchored text := by
  have hmarks := fun i => getElem?_of_run (i := i) hrest
  unfold readRun
  dsimp only
  generalize (cs.takeWhile (· == c)).length = n at hmarks ⊢
  refine h.push ⟨?_, rfl, hmarks, fun hopen => ?_, fun hclose => ?_⟩
  · show isBlank c = false
    rcases hmark with rfl | rfl
    · decide
    · decide
  · have hafter : isBlank ((cs.drop n).head?.getD ' ') = false := by
      simp only [runBetween, Bool.and_eq_true, Bool.not_eq_true'] at hopen
      exact hopen.1.1
    cases hhead : (cs.drop n).head? with
    | none =>
      rw [hhead] at hafter
      cases hafter
    | some d =>
      rw [hhead] at hafter
      refine ⟨d, ?_, hafter⟩
      show text[index + (n + 1)]? = some d
      rw [← Nat.add_assoc, getElem?_index_add hrest, ← List.head?_drop, hhead]
  · have hblank : isBlank before = false := by
      simp only [runBetween, Bool.and_eq_true, Bool.not_eq_true'] at hclose
      exact hclose.1.1
    obtain ⟨i, hi, hchar⟩ := hbefore hblank
    exact ⟨i, hi, before, hchar, hblank⟩

/-- Neither spaces nor line feeds stand in an address. -/
private theorem notMem_read? {address destination : List Char} (h : Autolink.read? cs = some (address, destination))
    {x : Char} (hx : x = ' ' ∨ x = '\n') : x ∉ address := by
  have hword {p : Char → Bool} (hp : p x = false) (ds : List Char) : x ∉ ds.takeWhile p := by
    intro hmem
    have htrue := List.mem_takeWhile_imp hmem
    rw [hp] at htrue
    cases htrue
  unfold Autolink.read? at h
  split at h
  · rename_i found hfound
    cases h
    unfold Autolink.uri? at hfound
    split at hfound
    · cases hfound
    · dsimp only at hfound
      split at hfound
      · rename_i d ds _ after _
        split at hfound
        · rename_i hcond
          cases hfound
          have hd : x ≠ d := by
            rintro rfl
            rcases hx with rfl | rfl <;> exact absurd hcond.1 (by decide)
          simp only [List.cons_append, List.mem_cons, List.mem_append, not_or]
          rcases hx with rfl | rfl <;> exact ⟨hd, hword (by decide) ds, by decide, hword (by decide) after⟩
        · cases hfound
      · cases hfound
  · obtain ⟨found, hfound, heq⟩ := Option.map_eq_some_iff.1 h
    cases heq
    unfold Autolink.mail? at hfound
    dsimp only at hfound
    split at hfound
    · rename_i after _
      split at hfound
      · cases hfound
        simp only [List.mem_append, List.mem_cons, not_or]
        rcases hx with rfl | rfl <;> exact ⟨hword (by decide) cs, by decide, hword (by decide) after⟩
      · cases hfound
    · cases hfound

private theorem anchored_readAngle (h : r.Anchored text) (hrest : text.drop index = '<' :: cs) :
    (readAngle r index cs).1.Anchored text := by
  unfold readAngle
  split
  · rename_i address destination hread
    obtain ⟨-, rest, hcs⟩ := Autolink.read?_eq_some hread
    have hnext : text.drop (index + 1) = cs := by rw [← List.drop_drop, hrest, List.drop_succ_cons, List.drop_zero]
    refine h.push ⟨fun width hwidth => ?_, fun hbreak => ?_, fun hcode => ?_, ⟨?_, trivial⟩⟩
    · cases hwidth
    · cases hbreak
    · cases hcode
    · have hstop : index + address.length + 2 - 1 = index + 1 + address.length := by omega
      rw [hstop]
      refine WordAnchored.of_prefix hnext ?_ (notMem_read? hread (.inr rfl)) fun hlast => ?_
      · rw [hcs]
        exact List.prefix_append _ _
      · exact absurd (List.mem_of_getLast? hlast) (notMem_read? hread (.inl rfl))
  · exact anchored_char h (by decide) hrest

private theorem anchored_readClose (h : r.Anchored text) (hrest : text.drop index = ']' :: cs) :
    (readClose r index cs).1.Anchored text := by
  have hclose : Piece.Anchored text (.text index (index + 1) [']']) :=
    WordAnchored.of_char (by decide) ⟨index, rfl, getElem?_index hrest⟩
  unfold readClose
  split
  · exact h.push hclose
  · rename_i inner start stop image active before hfound
    have hpieces : ∀ p ∈ inner ++ .opener start stop image active :: before, Piece.Anchored text p :=
      findBracket?_eq_some hfound ▸ h
    obtain ⟨hinner, hopener⟩ := List.forall_mem_append.1 hpieces
    obtain ⟨hbracket, hbefore⟩ := List.forall_mem_cons.1 hopener
    split
    · exact List.forall_mem_cons.2
        ⟨hclose, List.forall_mem_append.2 ⟨hinner, List.forall_mem_cons.2 ⟨hbracket, hbefore⟩⟩⟩
    · dsimp only
      split
      · exact List.forall_mem_cons.2 ⟨anchored_leaf rfl (by simp) (by simp [Content.kind]), hbefore⟩
      · refine List.forall_mem_cons.2
          ⟨⟨fun width hwidth => ?_, fun hbreak => ?_, fun hcode => ?_, ?_⟩, fun p hp => ?_⟩
        · cases hwidth
        · cases hbreak
        · cases hcode
        · exact anchoredList_iff.2 (anchored_resolve fun p hp => hinner p (List.mem_reverse.1 hp))
        · obtain ⟨q, hq, rfl⟩ := List.mem_map.1 hp
          have hanchored := hbefore q hq
          cases q <;> exact hanchored

/-- A bracket is anchored as the word that it is if no other bracket closes it. -/
private theorem anchored_bracket (h : r.Anchored text) (hrest : text.drop index = c :: cs) (image : Bool)
    (hbracket : bracket image <+: c :: cs) :
    (r.push (.opener index (index + (bracket image).length) image true)).Anchored text := by
  have hlast : '\n' ∉ bracket image ∧ (bracket image).getLast? ≠ some ' ' := by cases image <;> decide
  exact h.push (WordAnchored.of_prefix hrest hbracket hlast.1 fun hspace => absurd hspace hlast.2)

private theorem anchored_ite {p : Prop} [Decidable p] {s t : Step} (hs : p → s.1.Anchored text)
    (ht : ¬p → t.1.Anchored text) : (if p then s else t).1.Anchored text := by
  split
  · exact hs ‹p›
  · exact ht ‹¬p›

/-- Every step adds anchored pieces. -/
theorem anchored_readStep {before : Char} (h : r.Anchored text) (hrest : text.drop index = c :: cs)
    (hbefore : Precedes text before index) : (readStep r index before c cs).1.Anchored text := by
  unfold readStep
  refine anchored_ite (fun hc => anchored_readEscape h (hc ▸ hrest)) fun _ => ?_
  refine anchored_ite (fun hc => anchored_readSpaces h (hc ▸ hrest)) fun hspace => ?_
  refine anchored_ite (fun hc => ?_) fun hnewline => ?_
  · have hhere : text[index]? = some '\n' := by
      rw [← List.head?_drop, hrest, hc]
      rfl
    exact h.push (WordAnchored.of_newline (.inr hhere) ⟨index, rfl, hhere⟩)
  refine anchored_ite (fun hc => anchored_readCode h (hc ▸ hrest)) fun _ => ?_
  refine anchored_ite (fun hc => anchored_readRun h hrest hc hbefore) fun _ => ?_
  refine anchored_ite (fun hc => anchored_ite (fun hnext => ?_) fun _ => ?_) fun _ => ?_
  · obtain ⟨rest, rfl⟩ := List.head?_eq_some_iff.1 hnext
    subst hc
    exact anchored_bracket h hrest true (List.prefix_append ['!', '['] rest)
  · exact anchored_char h (by decide) (hc ▸ hrest)
  refine anchored_ite (fun hc => ?_) fun _ => ?_
  · subst hc
    exact anchored_bracket h hrest false (List.prefix_append ['['] cs)
  refine anchored_ite (fun hc => anchored_readClose h (hc ▸ hrest)) fun _ => ?_
  refine anchored_ite (fun hc => anchored_readAngle h (hc ▸ hrest)) fun _ => ?_
  -- A plain word has neither spaces nor line feeds.
  have hplain {x : Char} (hx : isPlain x = false) (hne : c ≠ x) : x ∉ c :: cs.takeWhile isPlain := by
    intro hmem
    rcases List.mem_cons.1 hmem with hc | hmem
    · exact hne hc.symm
    · rw [List.mem_takeWhile_imp hmem] at hx
      cases hx
  refine h.push (WordAnchored.of_prefix hrest ?_ (hplain (by decide) hnewline) fun hlast => ?_)
  · exact (List.prefix_cons_inj c).2 (List.takeWhile_prefix _)
  · exact absurd (List.mem_of_getLast? hlast) (hplain (by decide) hspace)

private theorem anchored_readFrom {before : Char} (h : r.Holds text index) (hr : r.Anchored text)
    (hrest : text.drop index = cs) (hbefore : Precedes text before index) :
    (readFrom r index before cs).Anchored text := by
  fun_induction readFrom r index before cs with
  | case1 r index before => exact hr
  | case2 r index before c cs step taken hstep ih =>
    have hs := holds_readStep h hrest before
    have hnext := anchored_readStep hr hrest hbefore
    rw [hstep] at hs hnext
    have hle := hs.le
    refine ih hs.holds hnext ?_ fun _ => ⟨index + taken, rfl, ?_⟩
    · rw [Nat.add_assoc, ← List.drop_drop, hrest, List.drop_succ_cons]
    · cases taken with
      | zero =>
        rw [Nat.add_zero, ← List.head?_drop, hrest]
        rfl
      | succ taken =>
        have hlast : (cs.take (taken + 1)).getLast? = cs[taken]? := by
          rw [List.getLast?_take, if_neg (Nat.succ_ne_zero taken), Nat.add_sub_cancel, List.getElem?_eq_getElem hle]
          rfl
        rw [hlast, ← Nat.add_assoc, getElem?_index_add hrest, List.getElem?_eq_getElem hle]
        rfl

end

/-- The pieces of inline content are anchored once emphasis is resolved. -/
theorem anchored_resolve_readPieces (text : List Char) :
    ∀ p ∈ Emphasis.resolve (readPieces text).1, Piece.Anchored text p := by
  have hstart : Precedes text ' ' 0 := fun hblank => absurd hblank (by decide)
  have hread := anchored_readFrom (holds_start text) (fun p hp => by cases hp) (rfl : text.drop 0 = text) hstart
  exact anchored_resolve fun p hp => hread p (List.mem_reverse.1 hp)

end MarkdownTree.Scan
