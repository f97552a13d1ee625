import MarkdownTree.Number.Binary
import MarkdownTree.Text.Blank

/-!
# Lines

The lines of a document, cut down to what they say inside their container. Every line remembers the offset of its first
character, so cutting off a marker or an indentation never loses the place in the source. Columns are whole numbers as
long as tab stops are; tab stops with a fraction give columns with one.
-/

namespace MarkdownTree.Scan

open Text

/-- The content of a source line inside its container. -/
structure Line where
  text : List Char
  offset : Nat
deriving DecidableEq, Repr, Inhabited

namespace Line

/-- The offset just after the line's content. -/
def stop (l : Line) : Nat :=
  l.offset + l.text.length

/-- A line of white space only. -/
def isBlank (l : Line) : Bool :=
  l.text.all Text.isBlank

/-- The line without its first characters. -/
def drop (l : Line) (n : Nat) : Line :=
  ⟨l.text.drop n, l.offset + n⟩

/-- The line without the blanks at its start. -/
def trimStart (l : Line) : Line :=
  l.drop (l.text.takeWhile Text.isBlank).length

/-- The line without the blanks at its end. -/
def trimEnd (l : Line) : Line :=
  { l with text := Text.trimEnd l.text }

/-- The offset just after the last character that is not blank. -/
def contentStop (l : Line) : Nat :=
  l.offset + (Text.trimEnd l.text).length

/-- The tab stop after a column, for tab stops of the given width. -/
def tabStop (tab column : Rat) : Rat :=
  settle (column + settle (tab - (column - (column / tab).floor * tab)))

/-- The column that a text's indentation reaches, counted from the given column; a tab goes to the next tab stop. -/
def indentFrom (tab column : Rat) : List Char → Rat
  | [] => column
  | c :: cs =>
    if c = ' ' then indentFrom tab (settle (column + 1)) cs
    else if c = '\t' then indentFrom tab (tabStop tab column) cs
    else column

/-- The width of the line's indentation. -/
def indent (tab : Rat) (l : Line) : Rat :=
  indentFrom tab 0 l.text

/-- How many characters of indentation fill so many columns; a tab that reaches beyond them counts whole. -/
def indentSize (tab columns column : Rat) : List Char → Nat
  | [] => 0
  | c :: cs =>
    if column < columns then
      if c = ' ' then indentSize tab columns (settle (column + 1)) cs + 1
      else if c = '\t' then indentSize tab columns (tabStop tab column) cs + 1
      else 0
    else 0

/-- The line without so many columns of indentation. -/
def dropColumns (tab columns : Rat) (l : Line) : Line :=
  l.drop (indentSize tab columns 0 l.text)

end Line

/-- A text without a carriage return at its end. -/
def dropReturn (cs : List Char) : List Char :=
  if cs.getLast? = some '\r' then cs.dropLast else cs

/-- Lines from the parts between line feeds, the first of which starts at the given offset. -/
def numberLines (offset : Nat) : List (List Char) → List Line
  | [] => []
  | part :: parts => ⟨dropReturn part, offset⟩ :: numberLines (offset + part.length + 1) parts

/-- The lines of a text. Nothing after a final line feed is no line, and an empty text has none. -/
def linesOf (text : List Char) : List Line :=
  let parts := fields '\n' text
  numberLines 0 (if parts.getLast? = some [] then parts.dropLast else parts)

end MarkdownTree.Scan
