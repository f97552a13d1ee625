import MarkdownTree.Print.Options
import MarkdownTree.Proofs.Pairing
import MarkdownTree.Proofs.Tree
import MarkdownTree.Proofs.Trim
import MarkdownTree.Scan.Inline

/-!
# Spelling

A text spells trees of text and emphasis with a row of delimiters, one for each emphasis node in document order
(`Spells`): nothing else stands in it but the texts and these delimiters.  Texts without a character that could start
anything else spell what they read as (`spells_readInline`).

Where no delimiter is left in the texts of what is read, a run of delimiters at the start leans on something
(`exists_of_run`).
-/

namespace MarkdownTree

/-- How many delimiters stand on either side of emphasis. -/
def Content.width? : Content → Option Nat
  | .emphasis => some 1
  | .strong => some 2
  | _ => none

/-- A text that spells trees of text and emphasis, and the delimiters of the emphasis nodes in document order. -/
inductive Spells : List (Tree Unit) → List Delimiter → List Char → Prop
  | nil : Spells [] [] []
  | text {value : String} {ts : List (Tree Unit)} {row : List Delimiter} {cs : List Char} (hne : value ≠ "")
    (hnext : ∀ t ∈ ts.head?, t.kind ≠ .text) (hrest : Spells ts row cs) :
    Spells (.node () (.text value) [] :: ts) row (value.toList ++ cs)
  | emphasis {content : Content} {width : Nat} {inner ts : List (Tree Unit)} {below row : List Delimiter}
    {cs ds : List Char} (d : Delimiter) (hwidth : content.width? = some width) (hinner : Spells inner below cs)
    (hrest : Spells ts row ds) :
    Spells (.node () content inner :: ts) (d :: (below ++ row))
      (List.replicate width d.char ++ (cs ++ (List.replicate width d.char ++ ds)))

namespace Content

theorem width_cases {c : Content} {width : Nat} (h : c.width? = some width) :
    c = .emphasis ∧ width = 1 ∨ c = .strong ∧ width = 2 := by
  cases c <;> cases h <;> simp

theorem width_pos {c : Content} {width : Nat} (h : c.width? = some width) : 0 < width := by
  rcases width_cases h with ⟨-, rfl⟩ | ⟨-, rfl⟩ <;> decide

theorem kind_of_width {c : Content} {width : Nat} (h : c.width? = some width) :
    c.kind = .emphasis ∨ c.kind = .strong := by
  rcases width_cases h with ⟨rfl, -⟩ | ⟨rfl, -⟩
  · exact .inl rfl
  · exact .inr rfl

theorem kind_ne_text {c : Content} {width : Nat} (h : c.width? = some width) : c.kind ≠ .text := by
  rcases width_cases h with ⟨rfl, -⟩ | ⟨rfl, -⟩ <;> decide

end Content

/-! ### Pieces -/

namespace Scan

open Text Emphasis

namespace Run

variable {r : Run} {n : Nat}

private theorem text_takeEnd (hn : n ≤ r.count) : r.text = (r.takeEnd n).text ++ List.replicate n r.mark := by
  show List.replicate r.count r.mark = List.replicate (r.count - n) r.mark ++ List.replicate n r.mark
  rw [List.replicate_append_replicate, Nat.sub_add_cancel hn]

private theorem text_takeStart (hn : n ≤ r.count) : r.text = List.replicate n r.mark ++ (r.takeStart n).text := by
  show List.replicate r.count r.mark = List.replicate n r.mark ++ List.replicate (r.count - n) r.mark
  rw [List.replicate_append_replicate, Nat.add_sub_cancel' hn]

end Run

namespace Piece

/-- A text that spells a row of pieces: text and delimiters as they are, and emphasis between delimiters. -/
inductive Spells : List Piece → List Char → Prop
  | nil : Spells [] []
  | text {start stop : Nat} {value : List Char} {ps : List Piece} {cs : List Char} (hne : value ≠ [])
    (hrest : Spells ps cs) : Spells (.text start stop value :: ps) (value ++ cs)
  | run {r : Run} {ps : List Piece} {cs : List Char} (d : Delimiter) (hmark : r.mark = d.char) (hcount : 0 < r.count)
    (hrest : Spells ps cs) : Spells (.run r :: ps) (r.text ++ cs)
  | node {start stop : Nat} {content : Content} {width : Nat} {inner ps : List Piece} {cs ds : List Char}
    (d : Delimiter) (hwidth : content.width? = some width) (hinner : Spells inner cs) (hrest : Spells ps ds) :
    Spells (.node start stop content inner :: ps)
      (List.replicate width d.char ++ (cs ++ (List.replicate width d.char ++ ds)))

namespace Spells

variable {ps qs : List Piece} {cs ds : List Char}

theorem append (hps : Spells ps cs) (hqs : Spells qs ds) : Spells (ps ++ qs) (cs ++ ds) := by
  induction hps with
  | nil => exact hqs
  | text hne _ ih =>
    rw [List.append_assoc]
    exact ih.text hne
  | run d hmark hcount _ ih =>
    rw [List.append_assoc]
    exact ih.run d hmark hcount
  | node d hwidth hinner _ _ ih =>
    simp only [List.append_assoc]
    exact .node d hwidth hinner ih

private theorem of_append (h : Spells (ps ++ qs) cs) : ∃ as bs, cs = as ++ bs ∧ Spells ps as ∧ Spells qs bs := by
  induction ps generalizing cs with
  | nil => exact ⟨[], cs, rfl, .nil, h⟩
  | cons p ps ih =>
    cases h with
    | text hne hrest =>
      obtain ⟨as, bs, rfl, has, hbs⟩ := ih hrest
      exact ⟨_, bs, (List.append_assoc _ as bs).symm, has.text hne, hbs⟩
    | run d hmark hcount hrest =>
      obtain ⟨as, bs, rfl, has, hbs⟩ := ih hrest
      exact ⟨_, bs, (List.append_assoc _ as bs).symm, has.run d hmark hcount, hbs⟩
    | node d hwidth hinner hrest =>
      obtain ⟨as, bs, rfl, has, hbs⟩ := ih hrest
      exact ⟨_, bs, by simp only [List.append_assoc], .node d hwidth hinner has, hbs⟩

private theorem remains {r : Run} (d : Delimiter) (hmark : r.mark = d.char) : Spells (remains r) r.text := by
  unfold Emphasis.remains
  split
  · rename_i hcount
    rw [Run.text, hcount]
    exact .nil
  · rename_i hcount
    have hrun := Spells.nil.run d hmark (Nat.pos_of_ne_zero hcount)
    rwa [List.append_nil] at hrun

end Spells

end Piece

open Piece

/-- A step leaves the text that the pieces spell: it makes delimiters of two runs those of a node. -/
private theorem Emphasis.Paired.spells {given ps qs : List Piece} (h : Paired given ps qs) {cs : List Char}
    (hps : Piece.Spells ps cs) : Piece.Spells qs cs := by
  obtain ⟨-, ho, hc, hmatch, hopen, hclose, hn, -⟩ := h
  rename_i opener closer o c n
  obtain ⟨as, bs, rfl, hbefore, hrest⟩ := hps.of_append
  cases hrest with
  | run d hmark _ hrest =>
    obtain ⟨es, fs, rfl, hbetween, hrest⟩ := hrest.of_append
    cases hrest with
    | run _ _ _ hafter =>
      have hsame : closer.mark = d.char := by rw [hc.mark, ← hmatch.mark, ← ho.mark, hmark]
      have hwidth : (if n = 2 then Content.strong else .emphasis).width? = some n := by
        rcases hn with rfl | ⟨rfl, -⟩ <;> rfl
      have hstart := Piece.Spells.remains (r := opener.takeEnd n) d hmark
      have hstop := Piece.Spells.remains (r := closer.takeStart n) d hsame
      rw [Run.text_takeEnd hopen, Run.text_takeStart hclose, hmark, hsame]
      simp only [List.append_assoc]
      exact hbefore.append (hstart.append (.node d hwidth hbetween (hstop.append hafter)))

/-- Resolving leaves the text that the pieces spell. -/
private theorem spells_resolve {ps : List Piece} {cs : List Char} (h : Piece.Spells ps cs) :
    Piece.Spells (resolve ps) cs := by
  have hsteps := reflTransGen_resolve ps
  generalize resolve ps = qs at hsteps
  induction hsteps with
  | refl => exact h
  | tail _ hstep ih => exact hstep.spells ih

/-! ### Reading -/

/-- Characters that can start something other than text and emphasis. -/
def startsOther (c : Char) : Bool :=
  c == '\\' || c == '\x60' || c == '[' || c == ']' || c == '<' || c == '\n'

private theorem take_length_takeWhile (p : Char → Bool) (cs : List Char) :
    cs.take (cs.takeWhile p).length = cs.takeWhile p :=
  (List.prefix_iff_eq_take.1 (List.takeWhile_prefix p)).symm

/-- A step from a character that starts text or emphasis adds one piece that is spelled by what the step takes. -/
private theorem exists_readStep {c : Char} {cs : List Char} (hc : startsOther c = false)
    (hcs : ∀ d ∈ cs, startsOther d = false) (r : Reading) (index : Nat) (before : Char) :
    ∃ p taken, readStep r index before c cs = (r.push p, taken) ∧ Piece.Spells [p] (c :: cs.take taken) := by
  have hword (start size : Nat) {value : List Char} (hne : value ≠ []) :
      Piece.Spells [.text start size value] value := by
    simpa using Piece.Spells.nil.text hne
  have hnot {d : Char} (hd : startsOther d = true) : c ≠ d := by
    rintro rfl
    rw [hc] at hd
    cases hd
  unfold readStep
  rw [if_neg (hnot (by decide))]
  split
  · -- A run of spaces: no line feed comes after it.
    rename_i hspace
    subst hspace
    have hrest : readSpaces r index cs = (r.pushText index ((cs.takeWhile (· == ' ')).length + 1)
        (List.replicate ((cs.takeWhile (· == ' ')).length + 1) ' '), (cs.takeWhile (· == ' ')).length) := by
      unfold readSpaces
      dsimp only
      split
      · rename_i rest hdrop
        have hmem : '\n' ∈ cs := List.mem_of_mem_drop (hdrop ▸ List.mem_cons_self)
        have hfalse := hcs _ hmem
        cases hfalse
      · rfl
    refine ⟨_, _, hrest, ?_⟩
    rw [take_length_takeWhile, takeWhile_beq ' ' cs, List.length_replicate, List.replicate_succ]
    exact hword _ _ (List.cons_ne_nil _ _)
  rw [if_neg (hnot (by decide)), if_neg (hnot (by decide))]
  split
  · rename_i hmark
    obtain ⟨d, hd⟩ : ∃ d : Delimiter, c = d.char := by
      rcases hmark with rfl | rfl
      · exact ⟨.star, rfl⟩
      · exact ⟨.underscore, rfl⟩
    refine ⟨_, _, rfl, ?_⟩
    rw [take_length_takeWhile, takeWhile_beq c cs, List.length_replicate]
    have hrun := Piece.Spells.nil.run (r := runBetween c before
      ((cs.drop (cs.takeWhile (· == c)).length).head?.getD ' ') index ((cs.takeWhile (· == c)).length + 1)) d hd
      (Nat.succ_pos _)
    rwa [List.append_nil] at hrun
  split
  · rename_i hbang
    subst hbang
    have hopen : cs.head? ≠ some '[' := by
      intro hhead
      have hfalse := hcs '[' (List.mem_of_mem_head? hhead)
      cases hfalse
    rw [if_neg hopen]
    exact ⟨_, _, rfl, hword _ _ (List.cons_ne_nil _ _)⟩
  rw [if_neg (hnot (by decide)), if_neg (hnot (by decide)), if_neg (hnot (by decide))]
  refine ⟨_, _, rfl, ?_⟩
  rw [take_length_takeWhile]
  exact hword _ _ (List.cons_ne_nil _ _)

private theorem exists_readFrom {cs : List Char} (hcs : ∀ d ∈ cs, startsOther d = false) (r : Reading) (index : Nat)
    (before : Char) :
    ∃ ps, (readFrom r index before cs).pieces.reverse = r.pieces.reverse ++ ps ∧ Piece.Spells ps cs := by
  cases cs with
  | nil =>
    rw [readFrom]
    exact ⟨[], (List.append_nil _).symm, .nil⟩
  | cons c cs =>
    obtain ⟨hc, hrest⟩ := List.forall_mem_cons.1 hcs
    obtain ⟨p, taken, hstep, hp⟩ := exists_readStep hc hrest r index before
    obtain ⟨ps, hpieces, hps⟩ := exists_readFrom (fun d hd => hrest d (List.mem_of_mem_drop hd)) (r.push p)
      (index + taken + 1) ((cs.take taken).getLast?.getD c)
    refine ⟨p :: ps, ?_, ?_⟩
    · rw [readFrom, hstep, hpieces, Reading.push, List.reverse_cons, List.append_assoc, List.singleton_append]
    · have hall := hp.append hps
      rwa [List.cons_append, List.nil_append, List.cons_append, List.take_append_drop] at hall
termination_by cs.length

private theorem spells_readPieces {cs : List Char} (hcs : ∀ d ∈ cs, startsOther d = false) :
    Piece.Spells (readPieces cs).1 cs := by
  obtain ⟨ps, hpieces, hps⟩ := exists_readFrom hcs ⟨[], []⟩ 0 ' '
  rw [readPieces]
  dsimp only
  rw [hpieces]
  exact hps

/-! ### Trees -/

private theorem spells_textNode {pending : List (Span × List Char)} (hpending : ∀ w ∈ pending, w.2 ≠ [])
    {ts : List (Tree Unit)} {row : List Delimiter} {cs : List Char} (hnext : ∀ t ∈ ts.head?, t.kind ≠ .text)
    (h : MarkdownTree.Spells ts row cs) :
    MarkdownTree.Spells ((textNode pending).map Tree.erase ++ ts) row (pending.reverse.flatMap (·.2) ++ cs) := by
  cases pending with
  | nil => exact h
  | cons word words =>
    have hvalue : String.ofList ((word :: words).reverse.flatMap (·.2)) ≠ "" := by
      intro hnil
      have hempty : (word :: words).reverse.flatMap (·.2) = [] := by
        rw [← String.toList_ofList (l := (word :: words).reverse.flatMap (·.2)), hnil]
        rfl
      exact hpending word List.mem_cons_self
        (List.flatMap_eq_nil_iff.1 hempty word (List.mem_reverse.2 List.mem_cons_self))
    have htext := h.text hvalue hnext
    rwa [String.toList_ofList] at htext

/-- The trees of pieces after pending words are spelled as these are. -/
private theorem spells_merge {ps : List Piece} {cs : List Char} (h : Piece.Spells ps cs) :
    ∀ pending : List (Span × List Char), (∀ w ∈ pending, w.2 ≠ []) → ∃ row,
      MarkdownTree.Spells ((merge pending (parts ps)).map Tree.erase) row (pending.reverse.flatMap (·.2) ++ cs) := by
  induction h with
  | nil =>
    intro pending hpending
    have htext := spells_textNode hpending (by simp) MarkdownTree.Spells.nil
    rw [List.append_nil] at htext
    exact ⟨[], htext⟩
  | @text start stop value ps cs hne _ ih =>
    intro pending hpending
    obtain ⟨row, hrow⟩ := ih ((⟨start, stop⟩, value) :: pending) (List.forall_mem_cons.2 ⟨hne, hpending⟩)
    refine ⟨row, ?_⟩
    rw [parts, part, merge]
    simpa using hrow
  | @run r ps cs d hmark hcount _ ih =>
    intro pending hpending
    have hne : r.text ≠ [] := by simpa [Run.text] using Nat.ne_of_gt hcount
    obtain ⟨row, hrow⟩ := ih ((⟨r.start, r.stop⟩, r.text) :: pending) (List.forall_mem_cons.2 ⟨hne, hpending⟩)
    refine ⟨row, ?_⟩
    rw [parts, part, merge]
    simpa using hrow
  | @node start stop content width inner ps cs ds d hwidth _ _ ihinner ih =>
    intro pending hpending
    obtain ⟨below, hbelow⟩ := ihinner [] (by simp)
    obtain ⟨row, hrow⟩ := ih [] (by simp)
    refine ⟨d :: (below ++ row), ?_⟩
    have hnode := MarkdownTree.Spells.emphasis d hwidth hbelow hrow
    have hkind := Content.kind_ne_text hwidth
    have hall := spells_textNode hpending (by simpa [Tree.kind, Tree.content] using hkind) hnode
    rw [parts, part, merge, List.map_append, List.map_cons, Tree.erase_node]
    simpa using hall

/-- A text without a character that could start anything else spells what it reads as. -/
theorem spells_readInline {cs : List Char} (hcs : ∀ d ∈ cs, startsOther d = false) :
    ∃ row, MarkdownTree.Spells ((readInline cs).trees.map Tree.erase) row cs := by
  obtain ⟨row, hrow⟩ := spells_merge (spells_resolve (spells_readPieces hcs)) [] (by simp)
  exact ⟨row, hrow⟩

/-! ### A run at the start -/

/-- A run that cannot open emphasis stays at the start. -/
private theorem exists_cons_of_steps {r : Run} (hopen : r.canOpen = false)
    {given ps qs : List Piece} (h : Relation.ReflTransGen (Paired given) (.run r :: ps) qs) :
    ∃ rest, qs = .run r :: rest := by
  induction h with
  | refl => exact ⟨ps, rfl⟩
  | tail _ hstep ih =>
    obtain ⟨rest, hrest⟩ := ih
    generalize hms : Piece.run r :: rest = ms at hrest
    subst hrest
    cases hstep with
    | @pair before between after opener closer o c n _ ho _ hmatch _ _ _ _ =>
      cases before with
      | nil =>
        cases (List.cons.inj hms).1
        rw [ho.canOpen, hmatch.canOpen] at hopen
        cases hopen
      | cons p before =>
        cases (List.cons.inj hms).1
        exact ⟨_, rfl⟩

/-- The first tree after pending words is a text that has all of them. -/
private theorem exists_text_of_merge {pending : List (Span × List Char)} {word : Span × List Char}
    (hword : word ∈ pending) (qs : List Part) :
    ∃ span value rest, merge pending qs = .node span (.text value) [] :: rest ∧ ∀ c ∈ word.2, c ∈ value.toList := by
  induction qs generalizing pending with
  | nil =>
    cases pending with
    | nil => cases hword
    | cons first words =>
      refine ⟨_, _, [], rfl, fun c hc => ?_⟩
      rw [String.toList_ofList]
      exact List.mem_flatMap.2 ⟨word, List.mem_reverse.2 hword, hc⟩
  | cons q qs ih =>
    cases q with
    | word span value => exact ih (.tail _ hword)
    | tree t =>
      cases pending with
      | nil => cases hword
      | cons first words =>
        refine ⟨_, _, _, rfl, fun c hc => ?_⟩
        rw [String.toList_ofList]
        exact List.mem_flatMap.2 ⟨word, List.mem_reverse.2 hword, hc⟩

/-- A run at the start that leans on nothing becomes a part of a text. -/
private theorem exists_text_of_run {d : Delimiter} {cs : List Char} (hcs : ∀ c ∈ cs, startsOther c = false)
    (hblank : isBlank ((cs.dropWhile (· == d.char)).head?.getD ' ') = true) :
    ∃ t ∈ (readInline (d.char :: cs)).trees, ∃ value, t.content = .text value ∧ d.char ∈ value.toList := by
  let r := runBetween d.char ' ' ((cs.dropWhile (· == d.char)).head?.getD ' ') 0
    ((cs.takeWhile (· == d.char)).length + 1)
  have hopen : r.canOpen = false := by simp [r, runBetween, hblank]
  have hstep : readStep ⟨[], []⟩ 0 ' ' d.char cs = (⟨[.run r], []⟩, (cs.takeWhile (· == d.char)).length) := by
    simp only [r]
    rw [← drop_length_takeWhile]
    cases d <;> rfl
  obtain ⟨ps, hread, -⟩ := exists_readFrom (fun c hc => hcs c (List.mem_of_mem_drop hc)) ⟨[.run r], []⟩
    (0 + (cs.takeWhile (· == d.char)).length + 1) ((cs.take (cs.takeWhile (· == d.char)).length).getLast?.getD d.char)
  have hpieces : (readPieces (d.char :: cs)).1 = .run r :: ps := by
    rw [readPieces]
    dsimp only
    rw [readFrom, hstep]
    exact hread
  obtain ⟨rest, hrest⟩ := exists_cons_of_steps hopen (hpieces ▸ reflTransGen_resolve (readPieces (d.char :: cs)).1)
  obtain ⟨span, value, others, hmerge, hvalue⟩ :=
    exists_text_of_merge (List.mem_singleton_self ((⟨r.start, r.stop⟩ : Span), r.text)) (parts rest)
  have htrees : (readInline (d.char :: cs)).trees = .node span (.text value) [] :: others := by
    rw [← hmerge, readInline]
    dsimp only
    rw [hpieces, hrest]
    rfl
  refine ⟨_, htrees ▸ List.mem_cons_self, value, rfl, hvalue _ ?_⟩
  exact List.mem_replicate.2 ⟨Nat.succ_ne_zero _, rfl⟩

/-- Where no text has the mark that inline content starts with, a character that is not blank follows the run of that
mark. -/
theorem exists_of_run {d : Delimiter} {cs : List Char} (hcs : ∀ c ∈ cs, startsOther c = false)
    (htexts : ∀ t ∈ (readInline (d.char :: cs)).trees, ∀ value, t.content = .text value → d.char ∉ value.toList) :
    ∃ a ∈ cs, a ≠ d.char ∧ isBlank a = false ∧ (cs.head? = some d.char ∨ cs.head? = some a) := by
  have hleans : isBlank ((cs.dropWhile (· == d.char)).head?.getD ' ') = false := by
    rw [← Bool.not_eq_true]
    intro hblank
    obtain ⟨t, ht, value, hcontent, hmem⟩ := exists_text_of_run hcs hblank
    exact htexts t ht value hcontent hmem
  have hnot := List.head?_dropWhile_not (· == d.char) cs
  cases hrest : cs.dropWhile (· == d.char) with
  | nil =>
    rw [hrest] at hleans
    cases hleans
  | cons a rest =>
    rw [hrest] at hleans hnot
    have hsplit : cs = cs.takeWhile (· == d.char) ++ a :: rest := by rw [← hrest, List.takeWhile_append_dropWhile]
    refine ⟨a, hsplit ▸ by simp, by simpa using hnot, hleans, ?_⟩
    cases hrun : cs.takeWhile (· == d.char) with
    | nil =>
      rw [hsplit, hrun]
      exact .inr rfl
    | cons x run =>
      have hx : (x == d.char) = true := List.all_eq_true.1 List.all_takeWhile x (hrun ▸ List.mem_cons_self)
      rw [hsplit, hrun, beq_iff_eq.1 hx]
      exact .inl rfl

end Scan

end MarkdownTree
