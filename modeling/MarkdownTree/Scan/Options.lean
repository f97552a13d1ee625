import MarkdownTree.Value

/-!
# Scanner settings
-/

namespace MarkdownTree

/-- How documents are read: whether a leading fenced block is front matter, how wide a tab stop is, and how many
containers may be nested before deeper markers count as text, with the number that messages give for it. -/
structure ScanOptions where
  frontMatter : Bool := true
  tabSize : Rat := 4
  maxNesting : Nat := 64
  nestingLimit : Value := .int maxNesting
  tabSize_pos : 0 < tabSize := by decide
  maxNesting_pos : 0 < maxNesting := by decide
deriving DecidableEq, Repr

instance : Inhabited ScanOptions := ⟨{}⟩

end MarkdownTree
