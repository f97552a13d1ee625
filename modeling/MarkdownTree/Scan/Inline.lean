import MarkdownTree.Scan.Autolink
import MarkdownTree.Scan.CodeSpan
import MarkdownTree.Scan.Emphasis
import MarkdownTree.Scan.Line
import MarkdownTree.Scan.LinkTail
import MarkdownTree.Text.Punctuation

/-!
# Inline content

The text of a paragraph or heading is read from left to right into pieces. A closing bracket looks back for the nearest
opening one and, if a link tail follows, makes a link or an image of what lies between. Emphasis is resolved inside each
link first and in the whole content last.
-/

namespace MarkdownTree.Scan

open Text

/-- Pieces read so far, the last one first, and the notes taken on the way, the last one first. -/
structure Reading where
  pieces : List Piece
  notes : List Note

/-- A reading with what one step adds, and how many characters after the first the step takes. -/
abbrev Step :=
  Reading × Nat

namespace Reading

variable (r : Reading)

/-- The reading with one more piece. -/
def push (p : Piece) : Reading :=
  { r with pieces := p :: r.pieces }

/-- The reading with one more note. -/
def remark (n : Note) : Reading :=
  { r with notes := n :: r.notes }

/-- The reading after a piece of text of the given length. -/
def pushText (start size : Nat) (value : List Char) : Reading :=
  r.push (.text start (start + size) value)

end Reading

/-- A character that starts nothing but text. -/
def isPlain (c : Char) : Bool :=
  !(c == '\\' || c == '\x60' || c == '*' || c == '_' || c == '!' || c == '[' || c == ']' || c == '<' || c == '\n'
    || c == ' ')

/-- A hard line break. -/
def breakPiece (start stop : Nat) : Piece :=
  .node start stop .lineBreak []

/-- After a backslash. -/
def readEscape (r : Reading) (index : Nat) : List Char → Step
  | '\n' :: _ => (r.push (breakPiece index (index + 2)), 1)
  | c :: _ => if isEscapable c then (r.pushText index 2 [c], 1) else (r.pushText index 1 ['\\'], 0)
  | [] => (r.pushText index 1 ['\\'], 0)

/-- After a space: two or more spaces break the line they end, and one disappears there. -/
def readSpaces (r : Reading) (index : Nat) (cs : List Char) : Step :=
  let more := (cs.takeWhile (· == ' ')).length
  match cs.drop more with
  | '\n' :: _ =>
    if 1 ≤ more then (r.push (breakPiece index (index + more + 2)), more + 1)
    else (r.pushText index 2 ['\n'], 1)
  | _ => (r.pushText index (more + 1) (List.replicate (more + 1) ' '), more)

/-- After a backtick. -/
def readCode (r : Reading) (index : Nat) (cs : List Char) : Step :=
  let more := CodeSpan.ticks cs
  let rest := cs.drop more
  match CodeSpan.body? (more + 1) false rest with
  | some body =>
    let stop := index + 2 * (more + 1) + body.length
    (r.push (.node index stop (.inlineCode (String.ofList (CodeSpan.value body))) []), stop - index - 1)
  | none =>
    let r := r.remark ⟨.unclosedCode, ⟨index, index + more + 1⟩⟩
    (r.pushText index (more + 1) (List.replicate (more + 1) '\x60'), more)

/-- A run of delimiters between two characters. A run can open emphasis when it leans on the text after it, and close it
when it leans on the text before it; underscores do neither inside a word. -/
def runBetween (mark before after : Char) (index count : Nat) : Run :=
  let left := !isBlank after && (!isPunctuation after || isBlank before || isPunctuation before)
  let right := !isBlank before && (!isPunctuation before || isBlank after || isPunctuation after)
  let free := mark == '*'
  { mark, count, initial := count, start := index, stop := index + count
    canOpen := left && (free || !right || isPunctuation before)
    canClose := right && (free || !left || isPunctuation after) }

/-- After an emphasis delimiter. -/
def readRun (r : Reading) (index : Nat) (before mark : Char) (cs : List Char) : Step :=
  let more := (cs.takeWhile (· == mark)).length
  let after := (cs.drop more).head?.getD ' '
  (r.push (.run (runBetween mark before after index (more + 1))), more)

/-- After an opening angle bracket. -/
def readAngle (r : Reading) (index : Nat) (cs : List Char) : Step :=
  match Autolink.read? cs with
  | some (address, destination) =>
    let stop := index + address.length + 2
    let label := Piece.text (index + 1) (stop - 1) address
    (r.push (.node index stop (.link (String.ofList destination) none) [label]), address.length + 1)
  | none => (r.pushText index 1 ['<'], 0)

/-- The nearest opening bracket among pieces (the last one first): the pieces after it, where it stands, whether it
opens an image and is still active, and the pieces before it. -/
def findBracket? : List Piece → Option (List Piece × (Nat × Nat × Bool × Bool) × List Piece)
  | [] => none
  | .opener start stop image active :: before => some ([], (start, stop, image, active), before)
  | p :: before => (findBracket? before).map fun (after, found) => (p :: after, found)

/-- Brackets that open links stop doing so once a link stands after them, as links hold no links. -/
def deactivate : Piece → Piece
  | .opener start stop image active => .opener start stop image (image && active)
  | p => p

/-- After a closing bracket. -/
def readClose (r : Reading) (index : Nat) (cs : List Char) : Step :=
  match findBracket? r.pieces with
  | none => (r.pushText index 1 [']'], 0)
  | some (inner, (start, stop, image, active), before) =>
    match if active then LinkTail.read? cs else none with
    | none =>
      let dangling := active && cs.head? == some '(' && !cs.contains ')'
      let notes := if dangling then ⟨.unclosedLink, ⟨start, index + 1 + cs.length⟩⟩ :: r.notes else r.notes
      (⟨.text index (index + 1) [']'] :: (inner ++ .text start stop (Piece.bracket image) :: before), notes⟩, 0)
    | some tail =>
      let children := Emphasis.resolve inner.reverse
      let destination := String.ofList tail.destination
      let title := tail.title.map String.ofList
      let stop := index + 1 + tail.size
      if image then
        let alt := String.ofList (Piece.plainList children)
        (⟨.node start stop (.image destination alt title) [] :: before, r.notes⟩, tail.size)
      else
        (⟨.node start stop (.link destination title) children :: before.map deactivate, r.notes⟩, tail.size)

/-- The step that the character at `index` calls for; `before` is the character before it. -/
def readStep (r : Reading) (index : Nat) (before c : Char) (cs : List Char) : Step :=
  if c = '\\' then readEscape r index cs
  else if c = ' ' then readSpaces r index cs
  else if c = '\n' then (r.pushText index 1 ['\n'], 0)
  else if c = '\x60' then readCode r index cs
  else if c = '*' ∨ c = '_' then readRun r index before c cs
  else if c = '!' then
    if cs.head? = some '[' then (r.push (.opener index (index + 2) true true), 1) else (r.pushText index 1 ['!'], 0)
  else if c = '[' then (r.push (.opener index (index + 1) false true), 0)
  else if c = ']' then readClose r index cs
  else if c = '<' then readAngle r index cs
  else
    let word := cs.takeWhile isPlain
    (r.pushText index (word.length + 1) (c :: word), word.length)

/-- Reads the text from `index` on. -/
def readFrom (r : Reading) (index : Nat) (before : Char) : List Char → Reading
  | [] => r
  | c :: cs =>
    let (r, taken) := readStep r index before c cs
    readFrom r (index + taken + 1) ((cs.take taken).getLast?.getD c) (cs.drop taken)
termination_by cs => cs.length

/-- The pieces of inline content before emphasis is resolved, and the notes on them. -/
def readPieces (text : List Char) : List Piece × List Note :=
  let r := readFrom ⟨[], []⟩ 0 ' ' text
  (r.pieces.reverse, r.notes.reverse)

/-- The trees that inline content reads as, and the notes on it. -/
structure Inline where
  trees : List (Tree Span)
  notes : List Note
deriving DecidableEq, Repr

/-- Reads inline content; all places are indices into it. -/
def readInline (text : List Char) : Inline :=
  let (pieces, notes) := readPieces text
  let resolved := Emphasis.resolve pieces
  ⟨Piece.trees resolved, notes ++ Piece.unmatchedList resolved⟩

/-- The content that lines make when they are joined. -/
def contentOf (lines : List Line) : List Char :=
  join ['\n'] (lines.map Line.text)

/-- The source offset of an index into the content of lines. A line feed that joins two lines belongs to the end of the
first, and indices beyond the content go on from the last line. -/
def sourceOf : List Line → Nat → Nat
  | [], index => index
  | [l], index => l.offset + index
  | l :: ls, index => if index ≤ l.text.length then l.offset + index else sourceOf ls (index - l.text.length - 1)

/-- The source offset of any index; those before the content go back from the first line. -/
def sourceAt? (lines : List Line) (index : Int) : Option Int :=
  lines.head?.map fun first => if index < 0 then first.offset + index else sourceOf lines index.toNat

/-- Reads the inline content that lines make; all places are source offsets. -/
def readLines (lines : List Line) : Inline :=
  let inline := readInline (contentOf lines)
  let move := sourceOf lines
  ⟨inline.trees.map (·.map fun s => ⟨move s.start, move s.stop⟩), inline.notes.map (·.relocate move)⟩

end MarkdownTree.Scan
