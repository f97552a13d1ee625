import MarkdownTree.Proofs.Anchor
import MarkdownTree.Proofs.Phrase

/-!
# Tidy content

Paragraphs, headings and emphasis do not start with a blank, nor do lines inside them, and they do not end with a line
feed; only headings may end with another blank.  No line inside ends with a space, and no code stands next to code
(`Content.Tidy`).  Inline content is read as trees all of whose nodes are
tidy, where every line feed has something that is not blank after it (`tidyRow_readInline`).
-/

namespace MarkdownTree

open Text

namespace Content

/-- A text that does not start with a blank, or something other than a text. -/
def OpensVisibly : Content → Prop
  | .text value => ∀ c ∈ value.toList.head?, isBlank c = false
  | _ => True

/-- A text that ends with a line feed, or a line break. -/
def EndsLine : Content → Prop
  | .text value => value.toList.getLast? = some '\n'
  | .lineBreak => True
  | _ => False

/-- A text that does not end with a blank, or something other than a text or a break. -/
def ClosesVisibly : Content → Prop
  | .text value => ∀ c ∈ value.toList.getLast?, isBlank c = false
  | .lineBreak => False
  | _ => True

theorem ClosesVisibly.not_endsLine {c : Content} (h : c.ClosesVisibly) : ¬c.EndsLine := by
  intro hends
  cases c with
  | text value => exact absurd (h '\n' hends) (by decide)
  | lineBreak => exact h
  | _ => exact hends

/-- What stands at the start of a line does not start with a blank, and what stands behind code is not code. -/
def Follows (c d : Content) : Prop :=
  (c.EndsLine → d.OpensVisibly) ∧ (c.kind = .inlineCode → d.kind ≠ .inlineCode)

/-- No line of a node starts with a blank or ends with a space, only a link may start with a blank or end with a line
feed, only a link or a heading may end with a blank, and no code follows code. -/
def Tidy (children : List Content) : Content → Prop
  | .text value =>
    (∀ init c rest, value.toList = init ++ '\n' :: c :: rest → isBlank c = false) ∧ ¬[' ', '\n'] <:+: value.toList
  | .paragraph | .emphasis | .strong =>
    children.IsChain Follows ∧ (∀ c ∈ children.head?, c.OpensVisibly) ∧ ∀ c ∈ children.getLast?, c.ClosesVisibly
  | .heading _ =>
    children.IsChain Follows ∧ (∀ c ∈ children.head?, c.OpensVisibly) ∧ ∀ c ∈ children.getLast?, ¬c.EndsLine
  | .link .. => children.IsChain Follows
  | _ => True

end Content

namespace Scan

open Piece

/-- A line feed has something that is not blank after it. -/
def LinesVisible (text : List Char) : Prop :=
  ∀ i, text[i]? = some '\n' → Visible text (i + 1)

theorem LinesVisible.of_endsLine {text : List Char} (h : LinesVisible text) {i : Nat} (hi : EndsLine text i) :
    Visible text i := by
  obtain ⟨j, rfl, hj⟩ := hi
  exact h j hj

variable {text : List Char} {lo mid hi : Nat}

/-- What stands first behind a place of a text starts as the text does there. -/
structure OpensAt (text : List Char) (lo : Nat) (c : Content) : Prop where
  visibly : Visible text lo → c.OpensVisibly
  code : c.kind = .inlineCode → text[lo]? = some '\x60'

/-- What stands last before a place of a text ends as the text does there. -/
structure ClosesAt (text : List Char) (hi : Nat) (c : Content) : Prop where
  line : c.EndsLine → EndsLine text hi
  visibly : (∃ i, i + 1 = hi ∧ Visible text i) → c.ClosesVisibly
  code : c.kind = .inlineCode → text[hi]? ≠ some '\x60'

private theorem ClosesAt.follows (htext : LinesVisible text) {c d : Content} (hc : ClosesAt text mid c)
    (hd : OpensAt text mid d) : c.Follows d :=
  ⟨fun hends => hd.visibly (htext.of_endsLine (hc.line hends)), fun hcode hcode' => hc.code hcode (hd.code hcode')⟩

/-- Trees between two places of a text, with tidy nodes. -/
structure TidyRow (text : List Char) (lo : Nat) (ts : List (Tree Span)) (hi : Nat) : Prop where
  empty : ts = [] → lo = hi
  first : ∀ c ∈ (ts.map Tree.content).head?, OpensAt text lo c
  last : ∀ c ∈ (ts.map Tree.content).getLast?, ClosesAt text hi c
  next : (ts.map Tree.content).IsChain Content.Follows
  tidy : ∀ t ∈ ts, ∀ u ∈ t.preorder, u.content.Tidy (u.children.map Tree.content)

private theorem TidyRow.nil : TidyRow text lo [] lo :=
  ⟨fun _ => rfl, by simp, by simp, .nil, by simp⟩

theorem TidyRow.append (htext : LinesVisible text) {ts us : List (Tree Span)} (hts : TidyRow text lo ts mid)
    (hus : TidyRow text mid us hi) : TidyRow text lo (ts ++ us) hi := by
  refine ⟨fun hnil => ?_, ?_, ?_, ?_, List.forall_mem_append.2 ⟨hts.tidy, hus.tidy⟩⟩
  · obtain ⟨hts', hus'⟩ := List.append_eq_nil_iff.1 hnil
    exact (hts.empty hts').trans (hus.empty hus')
  · cases ts with
    | nil =>
      rw [hts.empty rfl]
      exact hus.first
    | cons t ts => exact hts.first
  · by_cases hnil : us = []
    · rw [hnil, List.append_nil, ← hus.empty hnil]
      exact hts.last
    · rw [List.map_append, List.getLast?_append_of_ne_nil _ (mt List.map_eq_nil_iff.1 hnil)]
      exact hus.last
  · rw [List.map_append]
    exact hts.next.append hus.next fun c hc d hd => (hts.last c hc).follows htext (hus.first d hd)

/-! ### Words -/

/-- The value of words that stand next to each other between two places. -/
structure Sentence (text : List Char) (lo : Nat) (value : List Char) (hi : Nat) : Prop where
  empty : value = [] → lo = hi
  first : Visible text lo → ∀ c ∈ value.head?, isBlank c = false
  last : ∀ c ∈ value.getLast?, EndsWith text hi c
  space : value.getLast? = some ' ' → ∀ c ∈ text[hi]?, c ≠ ' ' ∧ c ≠ '\n'
  starts : ∀ init c rest, value = init ++ '\n' :: c :: rest → isBlank c = false
  ends : ¬[' ', '\n'] <:+: value

private theorem Sentence.nil : Sentence text lo [] lo :=
  ⟨fun _ => rfl, by simp, by simp, by simp, by simp, by simp⟩

namespace Sentence

variable {value word : List Char} (htext : LinesVisible text) (h : Sentence text lo value mid)
  (hword : WordAnchored text mid hi word)
include htext h hword

private theorem starts_append {init rest : List Char} {c : Char} (hsplit : value ++ word = init ++ '\n' :: c :: rest) :
    isBlank c = false := by
  rcases List.append_eq_append_iff.1 hsplit with ⟨middle, rfl, hmiddle⟩ | ⟨middle, rfl, hmiddle⟩
  · obtain ⟨hone, -⟩ := hword.newline (by rw [hmiddle]; simp)
    have hlength := congrArg List.length (hmiddle.symm.trans hone)
    simp only [List.length_append, List.length_cons, List.length_nil] at hlength
    omega
  · -- The line feed stands in what comes before the word: at its end, or with something after it.
    rcases middle with _ | ⟨e, _ | ⟨f, fs⟩⟩
    · rw [List.nil_append] at hmiddle
      obtain ⟨hone, -⟩ := hword.newline (by rw [← hmiddle]; simp)
      cases hmiddle.trans hone
    · simp only [List.cons_append, List.nil_append, List.cons.injEq] at hmiddle
      obtain ⟨rfl, rfl⟩ := hmiddle
      exact hword.head (htext.of_endsLine (h.last _ List.getLast?_concat)) c rfl
    · simp only [List.cons_append, List.cons.injEq] at hmiddle
      obtain ⟨rfl, rfl, -⟩ := hmiddle
      exact h.starts init c fs rfl

omit htext in
private theorem ends_append : ¬[' ', '\n'] <:+: value ++ word := by
  rintro ⟨init, rest, hsplit⟩
  rw [List.append_assoc] at hsplit
  rcases List.append_eq_append_iff.1 hsplit with ⟨middle, rfl, hmiddle⟩ | ⟨middle, rfl, hmiddle⟩
  · -- The space stands in what comes before the word: at its end, or with the line feed after it.
    rcases middle with _ | ⟨e, _ | ⟨f, fs⟩⟩
    · obtain ⟨hone, -⟩ := hword.newline (by rw [← List.nil_append word, ← hmiddle]; simp)
      cases hmiddle.trans hone
    · simp only [List.cons_append, List.nil_append, List.cons.injEq] at hmiddle
      obtain ⟨rfl, rfl⟩ := hmiddle
      obtain ⟨-, hstart⟩ := hword.newline (by simp)
      have hspace := h.space List.getLast?_concat
      rcases hstart with hstart | hstart
      · exact (hspace _ hstart).1 rfl
      · exact (hspace _ hstart).2 rfl
    · simp only [List.cons_append, List.cons.injEq] at hmiddle
      obtain ⟨rfl, rfl, -⟩ := hmiddle
      exact h.ends ⟨init, fs, by simp⟩
  · obtain ⟨hone, -⟩ := hword.newline (by rw [hmiddle]; simp)
    have hmem : ' ' ∈ word := by rw [hmiddle]; simp
    rw [hone] at hmem
    exact absurd hmem (by decide)

theorem append (hne : word ≠ []) : Sentence text lo (value ++ word) hi := by
  have hlast : (value ++ word).getLast? = word.getLast? := List.getLast?_append_of_ne_nil value hne
  refine ⟨fun hnil => absurd (List.append_eq_nil_iff.1 hnil).2 hne, fun hvisible => ?_, ?_, ?_, fun _ _ _ hsplit =>
    starts_append htext h hword hsplit, ends_append h hword⟩
  · cases value with
    | nil =>
      rw [h.empty rfl] at hvisible
      exact hword.head hvisible
    | cons e es => exact h.first hvisible
  · rw [hlast]
    exact hword.last
  · rw [hlast]
    exact hword.space

end Sentence

/-- Words that stand next to each other between two places, the last one first. -/
def AnchoredWords (text : List Char) (lo : Nat) : List (Span × List Char) → Nat → Prop
  | [], hi => lo = hi
  | (s, value) :: words, hi =>
    s.stop = hi ∧ value ≠ [] ∧ WordAnchored text s.start s.stop value ∧ AnchoredWords text lo words s.start

private theorem AnchoredWords.sentence (htext : LinesVisible text) {words : List (Span × List Char)}
    (h : AnchoredWords text lo words hi) : Sentence text lo (words.reverse.flatMap (·.2)) hi := by
  induction words generalizing hi with
  | nil =>
    cases h
    exact .nil
  | cons word words ih =>
    obtain ⟨rfl, hne, hword, hwords⟩ := h
    have hall := (ih hwords).append htext hword hne
    simpa using hall

private theorem tidyRow_textNode (htext : LinesVisible text) {words : List (Span × List Char)}
    (h : AnchoredWords text lo words hi) : TidyRow text lo (textNode words) hi := by
  have hsentence := h.sentence htext
  cases words with
  | nil =>
    cases h
    exact .nil
  | cons word words =>
    obtain ⟨span, hspan⟩ : ∃ span, textNode (word :: words) =
        [.node span (.text (String.ofList ((word :: words).reverse.flatMap (·.2)))) []] := ⟨_, rfl⟩
    rw [hspan]
    generalize (word :: words).reverse.flatMap (·.2) = value at hsentence
    have hvalue : (String.ofList value).toList = value := String.toList_ofList
    refine ⟨by simp, ?_, ?_, .singleton _, ?_⟩
    · rintro _ ⟨⟩
      refine ⟨fun hvisible => ?_, fun hcode => by cases hcode⟩
      show ∀ c ∈ (String.ofList value).toList.head?, isBlank c = false
      rw [hvalue]
      exact hsentence.first hvisible
    · rintro _ ⟨⟩
      refine ⟨fun hends => ?_, ?_, fun hcode => by cases hcode⟩
      · have hends : (String.ofList value).toList.getLast? = some '\n' := hends
        rw [hvalue] at hends
        exact hsentence.last _ hends
      · rintro ⟨i, hi, d, hd, hblank⟩ c hc
        rw [hvalue] at hc
        obtain ⟨j, hj, hchar⟩ := hsentence.last c hc
        obtain rfl : i = j := by omega
        cases hd.symm.trans hchar
        exact hblank
    · simp only [List.mem_singleton, forall_eq, Tree.preorder, Tree.preorderList]
      show (∀ init c rest, (String.ofList value).toList = init ++ '\n' :: c :: rest → isBlank c = false) ∧
        ¬[' ', '\n'] <:+: (String.ofList value).toList
      rw [hvalue]
      exact ⟨hsentence.starts, hsentence.ends⟩

/-! ### Pieces -/

private theorem tidy_of_marks {start first last stop : Nat} {children : List Piece}
    {content : Content} (hmarks : Marks text start first last stop children content)
    (hanchored : Piece.Anchored text (.node start stop content children))
    (hts : TidyRow text first (trees children) last) :
    content.Tidy ((trees children).map Tree.content) := by
  obtain ⟨hlean, -, -⟩ := hanchored
  have hemphasis {width : Nat} (hwidth : content.width? = some width) (hfirst : first = start + width)
      (hstop : stop = last + width) : ((trees children).map Tree.content).IsChain Content.Follows ∧
        (∀ c ∈ ((trees children).map Tree.content).head?, c.OpensVisibly) ∧
          ∀ c ∈ ((trees children).map Tree.content).getLast?, c.ClosesVisibly := by
    obtain ⟨hvisible, i, hi, hbefore⟩ := hlean width hwidth
    refine ⟨hts.next, fun c hc => (hts.first c hc).visibly (hfirst ▸ hvisible), fun c hc => ?_⟩
    exact (hts.last c hc).visibly ⟨i, by omega, hbefore⟩
  cases content with
  | emphasis => exact hemphasis rfl hmarks.1 hmarks.2.1
  | strong => exact hemphasis rfl hmarks.1 hmarks.2.1
  | link => exact hts.next
  | inlineCode | image | lineBreak => trivial
  | _ => exact hmarks.elim

private theorem opensAt_of_marks {start first last stop : Nat} {children : List Piece} {content : Content}
    (hmarks : Marks text start first last stop children content)
    (hanchored : Piece.Anchored text (.node start stop content children)) :
    OpensAt text start content ∧ ClosesAt text stop content := by
  obtain ⟨-, hbreak, hcode, -⟩ := hanchored
  refine ⟨⟨fun _ => ?_, fun h => (hcode h).1⟩, fun hends => ?_, ?_, fun h => (hcode h).2⟩
  · cases content with
    | text => exact hmarks.elim
    | _ => trivial
  · cases content with
    | text => exact hmarks.elim
    | lineBreak => exact hbreak rfl
    | _ => exact hends.elim
  · rintro ⟨i, rfl, hvisible⟩
    cases content with
    | text => exact hmarks.elim
    | lineBreak => exact hvisible.not_endsLine (hbreak rfl)
    | _ => trivial

mutual

/-- The node of an anchored piece is tidy, and so are all nodes below it. -/
private theorem tidyRow_part (htext : LinesVisible text) : ∀ {p : Piece}, Reads text p → Piece.Anchored text p →
    ∀ t, part p = .tree t → TidyRow text p.start [t] p.stop
  | .text .., _, _, _, ht => by cases ht
  | .run _, _, _, _, ht => by cases ht
  | .opener .., _, _, _, ht => by cases ht
  | .node start stop content children, hreads, hanchored, t, ht => by
    cases ht
    simp only [Reads] at hreads
    obtain ⟨first, last, -, -, hrow, hmarks⟩ := hreads
    have hwords : AnchoredWords text first [] first := rfl
    have hts := tidyRow_merge htext hwords hrow hanchored.2.2.2
    obtain ⟨hopens, hcloses⟩ := opensAt_of_marks hmarks hanchored
    refine ⟨by simp, ?_, ?_, .singleton _, ?_⟩
    · rintro _ ⟨⟩
      exact hopens
    · rintro _ ⟨⟩
      exact hcloses
    · simp only [List.mem_singleton, forall_eq]
      exact Tree.forall_mem_preorder.2 ⟨tidy_of_marks hmarks hanchored hts, hts.tidy⟩

/-- Words and the row of anchored pieces after them make a tidy row. -/
private theorem tidyRow_merge (htext : LinesVisible text) : ∀ {ps : List Piece} {words : List (Span × List Char)}
    {lo mid hi : Nat}, AnchoredWords text lo words mid → Row text mid ps hi → AnchoredList text ps →
      TidyRow text lo (merge words (parts ps)) hi
  | [], words, lo, mid, hi, hwords, hrow, _ => by
    cases hrow
    exact tidyRow_textNode htext hwords
  | .text start stop value :: ps, words, lo, mid, hi, hwords, hrow, hanchored => by
    simp only [Row, Reads] at hrow
    obtain ⟨rfl, hread, hps⟩ := hrow
    have hwords' : AnchoredWords text lo ((⟨start, stop⟩, value) :: words) stop :=
      ⟨rfl, hread.2, hanchored.1, hwords⟩
    have hmerge := tidyRow_merge htext hwords' hps hanchored.2
    exact hmerge
  | .run r :: ps, words, lo, mid, hi, hwords, hrow, hanchored => by
    simp only [Row] at hrow
    obtain ⟨rfl, hread, hps⟩ := hrow
    simp only [Reads] at hread
    have hrun : r.Anchored text := hanchored.1
    have hvalue : r.text ≠ [] := by simp [Run.text, Nat.ne_of_gt hread.1]
    have hword := hrun.word hread.1
    have hwords' : AnchoredWords text lo ((⟨r.start, r.stop⟩, r.text) :: words) r.stop := ⟨rfl, hvalue, hword, hwords⟩
    have hmerge := tidyRow_merge htext hwords' hps hanchored.2
    exact hmerge
  | .opener start stop image active :: ps, words, lo, mid, hi, hwords, hrow, hanchored => by
    simp only [Row] at hrow
    obtain ⟨rfl, hread, hps⟩ := hrow
    have hvalue : bracket image ≠ [] := by cases image <;> simp [bracket]
    have hwords' : AnchoredWords text lo ((⟨start, stop⟩, bracket image) :: words) stop :=
      ⟨rfl, hvalue, hanchored.1, hwords⟩
    have hmerge := tidyRow_merge htext hwords' hps hanchored.2
    exact hmerge
  | .node start stop content children :: ps, words, lo, mid, hi, hwords, hrow, hanchored => by
    simp only [Row] at hrow
    obtain ⟨rfl, hread, hps⟩ := hrow
    have hpart := tidyRow_part htext hread hanchored.1 _ rfl
    have hwords' : AnchoredWords text stop [] stop := rfl
    have hrest := hpart.append htext (tidyRow_merge htext hwords' hps hanchored.2)
    exact (tidyRow_textNode htext hwords).append htext hrest

end

/-- Inline content with something visible behind every line feed is read as a tidy row. -/
theorem tidyRow_readInline (htext : LinesVisible text) : TidyRow text 0 (readInline text).trees text.length := by
  have hwords : AnchoredWords text 0 [] 0 := rfl
  exact tidyRow_merge htext hwords (row_resolve_readPieces text) (anchoredList_iff.2 (anchored_resolve_readPieces text))

end Scan

end MarkdownTree
