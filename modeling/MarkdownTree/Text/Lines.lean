/-!
# Lines of any text

The lines of a text, where a line ends at any of the characters that end lines, paragraphs or pages.
-/

namespace MarkdownTree.Text

/-- Characters that end lines. -/
def isLineEnd (c : Char) : Bool :=
  let n := c.toNat
  (0xA ≤ n && n ≤ 0xD) || (0x1C ≤ n && n ≤ 0x1E) || n == 0x85 || n == 0x2028 || n == 0x2029

/-- The lines of a text after the start of one, which is given backwards. -/
def linesFrom (line : List Char) : List Char → List (List Char)
  | [] => if line.isEmpty then [] else [line.reverse]
  | '\r' :: '\n' :: cs => line.reverse :: linesFrom [] cs
  | c :: cs => if isLineEnd c then line.reverse :: linesFrom [] cs else linesFrom (c :: line) cs

/-- The lines of a text, without what ends them. -/
def lines (s : String) : List String :=
  (linesFrom [] s.toList).map String.ofList

end MarkdownTree.Text
