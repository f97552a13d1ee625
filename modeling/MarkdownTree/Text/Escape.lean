/-!
# Backslash escapes

Any punctuation mark of ASCII may be written after a backslash, which then disappears.
-/

namespace MarkdownTree.Text

/-- The punctuation marks of ASCII, all of which may follow an escaping backslash. -/
def isEscapable (c : Char) : Bool :=
  let n := c.toNat
  (33 ≤ n && n ≤ 47) || (58 ≤ n && n ≤ 64) || (91 ≤ n && n ≤ 96) || (123 ≤ n && n ≤ 126)

/-- A text without the backslashes that escape something. -/
def unescape : List Char → List Char
  | '\\' :: c :: cs => if isEscapable c then c :: unescape cs else '\\' :: unescape (c :: cs)
  | c :: cs => c :: unescape cs
  | [] => []

end MarkdownTree.Text
