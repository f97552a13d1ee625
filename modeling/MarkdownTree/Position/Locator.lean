import MarkdownTree.Position

/-!
# Locators

A locator turns the offsets of one text into points and back. A line feed ends its line and belongs to it.
-/

namespace MarkdownTree

/-- The length of a text and the offsets at which its lines start, the first line's apart. -/
structure Locator where
  size : Nat
  breaks : List Nat
deriving DecidableEq, Repr

namespace Locator

/-- The offsets just after the line feeds of a text that starts at the given offset. -/
def breaksFrom (offset : Nat) : List Char → List Nat
  | [] => []
  | c :: cs => if c = '\n' then (offset + 1) :: breaksFrom (offset + 1) cs else breaksFrom (offset + 1) cs

/-- The locator of a text. -/
def ofText (text : List Char) : Locator :=
  ⟨text.length, breaksFrom 0 text⟩

/-- The line that holds an offset and the offset at which it starts, searched among the lines that follow one. -/
def lineFrom (line start offset : Nat) : List Nat → Nat × Nat
  | [] => (line, start)
  | next :: rest => if next ≤ offset then lineFrom (line + 1) next offset rest else (line, start)

/-- The point of an offset of the text. -/
def pointAt (l : Locator) (offset : Nat) : Point :=
  let offset := min offset l.size
  let (line, start) := lineFrom 1 0 offset l.breaks
  ⟨line, offset - start + 1, offset⟩

/-- The point of any offset; one outside the text stands for the nearer end. -/
def point (l : Locator) (offset : Int) : Point :=
  l.pointAt offset.toNat

/-- The offset of a line and column, at most the text's length; `none` when there is no such line. -/
def offset? (l : Locator) (line column : Int) : Option Int :=
  if line < 1 then none
  else ((0 :: l.breaks)[(line - 1).toNat]?).map fun start => min (start + column - 1) l.size

/-- The offset of a line and column, or the fault that there is no such line. -/
def offset (l : Locator) (line column : Int) : Except Fault Int :=
  match l.offset? line column with
  | some n => .ok n
  | none => .error (.value (.line line))

/-- The position between two offsets of the text, unless the second comes first. -/
def position? (l : Locator) (start stop : Int) : Option Position :=
  Position.between? (l.point start) (l.point stop)

end Locator

end MarkdownTree
