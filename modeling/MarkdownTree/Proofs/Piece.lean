import Mathlib.Data.List.Chain
import MarkdownTree.Scan.Emphasis

/-!
# Rows of pieces

The pieces of inline content tile it: `Row text lo ps hi` says that the pieces cover the text from `lo` to `hi` without
gaps, that each says what its marks in the text stand for (`Reads`), and the same of what stands inside emphasis and
links.  A link is written with brackets or is an address between angle brackets, and no link that is written with
brackets stands inside another one (`Unbracketed`).  Neighbouring runs of delimiters have different marks (`Apart`), so
there is always something between two runs that pair.
-/

namespace MarkdownTree.Scan.Piece

mutual

/-- No link inside the piece is written with brackets. -/
def Unbracketed (text : List Char) : Piece → Prop
  | node start _ content children =>
    (content.kind = .link → text[start]? ≠ some '[') ∧ UnbracketedList text children
  | _ => True

/-- No link inside a row of pieces is written with brackets. -/
def UnbracketedList (text : List Char) : List Piece → Prop
  | [] => True
  | p :: ps => Unbracketed text p ∧ UnbracketedList text ps

end

theorem unbracketedList_iff {text : List Char} {ps : List Piece} :
    UnbracketedList text ps ↔ ∀ p ∈ ps, Unbracketed text p := by
  induction ps with
  | nil => simp [UnbracketedList]
  | cons p ps ih => simp [UnbracketedList, ih]

/-- What a node's content says of its place: the node goes from `start` to `stop`, what stands inside it from `first` to
`last`. -/
def Marks (text : List Char) (start first last stop : Nat) (children : List Piece) : Content → Prop
  | .emphasis => first = start + 1 ∧ stop = last + 1 ∧ children ≠ []
  | .strong => first = start + 2 ∧ stop = last + 2 ∧ children ≠ []
  | .link .. =>
    first = start + 1 ∧
      ((text[start]? = some '[' ∧ text[last]? = some ']' ∧ UnbracketedList text children) ∨
        (text[start]? = some '<' ∧ text[last]? = some '>' ∧ stop = last + 1 ∧
          ∃ address, children = [.text first last address]))
  | .inlineCode value => children = [] ∧ value ≠ "" ∧ '\n' ∉ value.toList
  | .image .. | .lineBreak => children = []
  | _ => False

mutual

/-- A piece says what the text has between its ends. -/
def Reads (text : List Char) : Piece → Prop
  | .text start stop value => start < stop ∧ value ≠ []
  | .run r => 0 < r.count ∧ r.stop = r.start + r.count
  | .opener start stop image _ => stop = start + (bracket image).length ∧ text[start]? = (bracket image).head?
  | .node start stop content children =>
    ∃ first last, start < first ∧ last < stop ∧ Row text first children last ∧
      Marks text start first last stop children content

/-- Pieces tile the text between two places. -/
def Row (text : List Char) : Nat → List Piece → Nat → Prop
  | lo, [], hi => lo = hi
  | lo, p :: ps, hi => p.start = lo ∧ Reads text p ∧ Row text p.stop ps hi

end

variable {text : List Char} {lo hi : Nat} {p q : Piece} {ps qs : List Piece}

mutual

/-- Every piece takes up some of the text. -/
theorem Reads.lt : ∀ {p : Piece}, Reads text p → p.start < p.stop
  | .text .., h => by
    simp only [Reads] at h
    exact h.1
  | .run r, h => by
    simp only [Reads] at h
    simp only [start, stop]
    omega
  | .opener _ _ image _, h => by
    simp only [Reads] at h
    cases image <;> simp_all [start, stop, bracket]
  | .node _ _ _ children, h => by
    simp only [Reads] at h
    obtain ⟨first, last, hfirst, hlast, hrow, -⟩ := h
    have := hrow.le
    simp only [start, stop]
    omega

theorem Row.le : ∀ {ps : List Piece} {lo hi : Nat}, Row text lo ps hi → lo ≤ hi
  | [], _, _, h => by
    simp only [Row] at h
    exact Nat.le_of_eq h
  | p :: ps, lo, hi, h => by
    simp only [Row] at h
    have := h.2.1.lt
    have := h.2.2.le
    omega

end

theorem row_append : Row text lo (ps ++ qs) hi ↔ ∃ mid, Row text lo ps mid ∧ Row text mid qs hi := by
  induction ps generalizing lo with
  | nil => simp [Row]
  | cons p ps ih =>
    simp only [List.cons_append, Row, ih]
    constructor
    · rintro ⟨hstart, hp, mid, hps, hqs⟩
      exact ⟨mid, ⟨hstart, hp, hps⟩, hqs⟩
    · rintro ⟨mid, ⟨hstart, hp, hps⟩, hqs⟩
      exact ⟨hstart, hp, mid, hps, hqs⟩

theorem row_singleton : Row text lo [p] hi ↔ p.start = lo ∧ Reads text p ∧ p.stop = hi := by
  simp [Row]

/-! ### Runs side by side -/

/-- The mark of a run of delimiters. -/
def mark? : Piece → Option Char
  | .run r => some r.mark
  | _ => none

/-- Two pieces are not runs of the same mark. -/
def Apart (p q : Piece) : Prop :=
  p.mark? = none ∨ p.mark? ≠ q.mark?

theorem Apart.symm (h : Apart p q) : Apart q p := by
  unfold Apart at *
  rcases h with h | h
  · cases hq : q.mark? with
    | none => exact .inl rfl
    | some c => exact .inr (by simp [h])
  · exact .inr h.symm

theorem apart_of_mark?_left (h : p.mark? = none) : Apart p q :=
  .inl h

theorem apart_of_mark?_right (h : q.mark? = none) : Apart p q :=
  Apart.symm (.inl h)

theorem isChain_apart_reverse : ps.reverse.IsChain Apart ↔ ps.IsChain Apart := by
  rw [List.isChain_reverse]
  exact List.IsChain.iff fun _ _ => ⟨Apart.symm, Apart.symm⟩

end MarkdownTree.Scan.Piece
