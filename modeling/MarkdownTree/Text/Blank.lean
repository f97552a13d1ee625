import MarkdownTree.Text.Range

/-!
# Blank characters

White space of every script, and the trimming of texts by it.
-/

namespace MarkdownTree.Text

/-- The ranges of white space code points; the separators U+001C to U+001F are among them. -/
def blankRanges : List (Nat × Nat) := [
  (0x9, 0xD), (0x1C, 0x20), (0x85, 0x85), (0xA0, 0xA0), (0x1680, 0x1680), (0x2000, 0x200A), (0x2028, 0x2029),
  (0x202F, 0x202F), (0x205F, 0x205F), (0x3000, 0x3000)]

/-- White space of every script. -/
def isBlank (c : Char) : Bool :=
  inRanges blankRanges c.toNat

/-- A space or a tab, the only blanks that count towards indentation. -/
def isGap (c : Char) : Bool :=
  c == ' ' || c == '\t'

/-- A text without the characters at its end that satisfy the test. -/
def dropEndWhile (p : α → Bool) (cs : List α) : List α :=
  (cs.reverse.dropWhile p).reverse

/-- A text without the blanks at its start. -/
def trimStart (cs : List Char) : List Char :=
  cs.dropWhile isBlank

/-- A text without the blanks at its end. -/
def trimEnd (cs : List Char) : List Char :=
  dropEndWhile isBlank cs

/-- A text without the blanks at either end. -/
def trim (cs : List Char) : List Char :=
  trimEnd (trimStart cs)

/-- Texts put together with a separator between neighbours. -/
def join (separator : List Char) : List (List Char) → List Char
  | [] => []
  | [part] => part
  | part :: parts => part ++ separator ++ join separator parts

/-- The parts of a text between the places where a character stands; there is always at least one part. -/
def fields (separator : Char) : List Char → List (List Char)
  | [] => [[]]
  | c :: cs =>
    if c = separator then
      [] :: fields separator cs
    else
      match fields separator cs with
      | [] => [[c]]
      | part :: parts => (c :: part) :: parts

theorem fields_ne_nil (separator : Char) (cs : List Char) : fields separator cs ≠ [] := by
  induction cs with
  | nil => simp [fields]
  | cons c cs ih =>
    unfold fields
    split
    · simp
    · split <;> simp

theorem join_fields (separator : Char) (cs : List Char) :
    join [separator] (fields separator cs) = cs := by
  induction cs with
  | nil => simp [fields, join]
  | cons c cs ih =>
    have hne := fields_ne_nil separator cs
    unfold fields
    split
    · rename_i h
      cases hf : fields separator cs with
      | nil => exact absurd hf hne
      | cons part parts => simp [join, ← hf, ih, h]
    · cases hf : fields separator cs with
      | nil => exact absurd hf hne
      | cons part parts =>
        rw [hf] at ih
        cases parts with
        | nil => simpa [join] using ih
        | cons p ps => simpa [join] using ih

end MarkdownTree.Text
