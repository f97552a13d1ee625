import MarkdownTree.Scan.Anomaly
import MarkdownTree.Tree

/-!
# Pieces of inline content

Inline content is cut into a row of pieces that cover it without gaps: text, runs of emphasis delimiters, opening
brackets and finished nodes. Runs and brackets that find no partner count as text in the end. All indices are places in
the content.
-/

namespace MarkdownTree.Scan

/-- A run of emphasis delimiters: what is left of it, and how long it was at first. -/
structure Run where
  mark : Char
  count : Nat
  initial : Nat
  start : Nat
  stop : Nat
  canOpen : Bool
  canClose : Bool
deriving DecidableEq, Repr

namespace Run

/-- The delimiters that are left. -/
def text (r : Run) : List Char :=
  List.replicate r.count r.mark

/-- The run without so many delimiters at its end. -/
def takeEnd (r : Run) (n : Nat) : Run :=
  { r with count := r.count - n, stop := r.stop - n }

/-- The run without so many delimiters at its start. -/
def takeStart (r : Run) (n : Nat) : Run :=
  { r with count := r.count - n, start := r.start + n }

end Run

/-- A piece of inline content. -/
inductive Piece where
  | text (start stop : Nat) (value : List Char)
  | run (r : Run)
  | opener (start stop : Nat) (image active : Bool)
  | node (start stop : Nat) (content : Content) (children : List Piece)
deriving Repr, Inhabited

namespace Piece

/-- Where the piece starts. -/
def start : Piece → Nat
  | text start .. => start
  | run r => r.start
  | opener start .. => start
  | node start .. => start

/-- Where the piece ends. -/
def stop : Piece → Nat
  | text _ stop _ => stop
  | run r => r.stop
  | opener _ stop .. => stop
  | node _ stop .. => stop

/-- What a bracket that opens a link or an image looks like. -/
def bracket (image : Bool) : List Char :=
  if image then ['!', '['] else ['[']

mutual

/-- The plain text that a piece shows. -/
def plain : Piece → List Char
  | text _ _ value => value
  | run r => r.text
  | opener _ _ image _ => bracket image
  | node _ _ content children =>
    match content with
    | .inlineCode value => value.toList
    | .image _ alt _ => alt.toList
    | .lineBreak => ['\n']
    | _ => plainList children

/-- The plain text that a row of pieces shows. -/
def plainList : List Piece → List Char
  | [] => []
  | p :: ps => plain p ++ plainList ps

end

/-! ### From pieces to trees -/

/-- What a piece comes to: some text, or a node. -/
inductive Part where
  | word (span : Span) (value : List Char)
  | tree (t : Tree Span)

/-- The text node of words that stand next to each other, the last word first. -/
def textNode : List (Span × List Char) → List (Tree Span)
  | [] => []
  | words@((last, _) :: _) =>
    let first := (words.getLast?.map (·.1)).getD last
    [.node ⟨first.start, last.stop⟩ (.text (String.ofList (words.reverse.flatMap (·.2)))) []]

/-- The trees of a row of parts after pending words: words next to each other make one text node. -/
def merge (pending : List (Span × List Char)) : List Part → List (Tree Span)
  | [] => textNode pending
  | .word span value :: parts => merge ((span, value) :: pending) parts
  | .tree t :: parts => textNode pending ++ t :: merge [] parts

mutual

/-- What one piece comes to. -/
def part : Piece → Part
  | text start stop value => .word ⟨start, stop⟩ value
  | run r => .word ⟨r.start, r.stop⟩ r.text
  | opener start stop image _ => .word ⟨start, stop⟩ (bracket image)
  | node start stop content children => .tree (.node ⟨start, stop⟩ content (merge [] (parts children)))

/-- What a row of pieces comes to. -/
def parts : List Piece → List Part
  | [] => []
  | p :: ps => part p :: parts ps

end

/-- The trees of a row of pieces. -/
def trees (ps : List Piece) : List (Tree Span) :=
  merge [] (parts ps)

mutual

/-- The notes on delimiters that found no partner in a piece. -/
def unmatched : Piece → List Note
  | run r => if r.canOpen || r.canClose then [⟨.unmatchedDelimiter r.text, ⟨r.start, r.stop⟩⟩] else []
  | node _ _ _ children => unmatchedList children
  | _ => []

/-- The notes on delimiters that found no partner in a row of pieces. -/
def unmatchedList : List Piece → List Note
  | [] => []
  | p :: ps => unmatched p ++ unmatchedList ps

end

end Piece

end MarkdownTree.Scan
