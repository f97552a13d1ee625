import MarkdownTree.Text.Blank

/-!
# Code spans

A code span goes from a run of backticks to the next run of the same length, whatever longer or shorter runs lie between
them.
-/

namespace MarkdownTree.Scan.CodeSpan

open Text

/-- How many backticks a text starts with. -/
def ticks (cs : List Char) : Nat :=
  (cs.takeWhile (· == '\x60')).length

/-- The text up to the first whole run of exactly `size` backticks; `inside` says that the text goes on a run which was
not the right one. -/
def body? (size : Nat) (inside : Bool) : List Char → Option (List Char)
  | [] => none
  | c :: cs =>
    if c = '\x60' then
      if !inside && ticks cs + 1 == size then some []
      else (body? size true cs).map (c :: ·)
    else (body? size false cs).map (c :: ·)

/-- The value of a code span: line feeds read as spaces, and of a text between spaces that is not all spaces, one space
is dropped on either side. -/
def value (body : List Char) : List Char :=
  let flat := body.map fun c => if c = '\n' then ' ' else c
  if 2 ≤ flat.length ∧ flat.head? = some ' ' ∧ flat.getLast? = some ' ' ∧ flat.any (· != ' ') then
    (flat.drop 1).dropLast
  else flat

end MarkdownTree.Scan.CodeSpan
