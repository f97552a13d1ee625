import MarkdownTree.Text.Blank
import MarkdownTree.Text.Escape

/-!
# Link tails

What follows the closing bracket of a link or an image: a destination and perhaps a title, between parentheses. Every
reader returns what it read and how many characters it took.
-/

namespace MarkdownTree.Scan

open Text

/-- The blanks that may stand between the parts of a link tail. -/
def isTailSpace (c : Char) : Bool :=
  c == ' ' || c == '\t' || c == '\n'

/-- A destination between angle brackets, after the first of them: the text up to the second. -/
def angled? : List Char → Option (List Char)
  | [] => none
  | '\\' :: c :: cs => (angled? cs).map fun d => '\\' :: c :: d
  | c :: cs =>
    if c = '>' then some []
    else if c = '<' ∨ c = '\n' then none
    else (angled? cs).map (c :: ·)

/-- A destination without brackets, inside so many parentheses of its own: the text up to a blank, a control character
or a parenthesis that it did not open, and the number of its parentheses still open there. -/
def bare (depth : Nat) : List Char → List Char × Nat
  | [] => ([], depth)
  | '\\' :: c :: cs =>
    if isEscapable c then
      let (d, rest) := bare depth cs
      ('\\' :: c :: d, rest)
    else
      let (d, rest) := bare depth (c :: cs)
      ('\\' :: d, rest)
  | c :: cs =>
    if isBlank c ∨ c.toNat < 0x20 ∨ (c = ')' ∧ depth = 0) then ([], depth)
    else
      let (d, rest) := bare (if c = '(' then depth + 1 else if c = ')' then depth - 1 else depth) cs
      (c :: d, rest)

/-- A title after its opening mark: the text up to the closing one, which is no backslash. -/
def titled? (closer : Char) : List Char → Option (List Char)
  | [] => none
  | '\\' :: c :: cs => (titled? closer cs).map fun t => '\\' :: c :: t
  | c :: cs => if c = closer then some [] else (titled? closer cs).map (c :: ·)

/-- What a link tail says, and how many characters it takes. -/
structure LinkTail where
  destination : List Char
  title : Option (List Char)
  size : Nat
deriving DecidableEq, Repr

namespace LinkTail

/-- The destination at the start of a text as it is written, with the number of characters it takes. -/
def destination? : List Char → Option (List Char × Nat)
  | '<' :: cs => (angled? cs).map fun d => (d, d.length + 2)
  | cs =>
    let (d, depth) := bare 0 cs
    if depth = 0 then some (d, d.length) else none

/-- The title at the start of a text as it is written, if there is one, with the number of characters it takes; `none`
when a title is opened and never closed. -/
def title? : List Char → Option (Option (List Char) × Nat)
  | c :: cs =>
    if c = '"' ∨ c = '\'' ∨ c = '(' then
      (titled? (if c = '(' then ')' else c) cs).map fun t => (some t, t.length + 2)
    else some (none, 0)
  | [] => some (none, 0)

/-- The link tail at the start of a text. A title has to be set off by a blank. -/
def read? : List Char → Option LinkTail
  | '(' :: cs => do
    let lead := (cs.takeWhile isTailSpace).length
    let (destination, size) ← destination? (cs.drop lead)
    let taken := lead + size
    let gap := ((cs.drop taken).takeWhile isTailSpace).length
    let taken := taken + gap
    let (title, size) ← if 0 < gap then title? (cs.drop taken) else some (none, 0)
    let taken := taken + size
    let taken := if title.isSome then taken + ((cs.drop taken).takeWhile isTailSpace).length else taken
    match cs.drop taken with
    | ')' :: _ => some ⟨unescape destination, title.map unescape, taken + 2⟩
    | _ => none
  | _ => none

end LinkTail

end MarkdownTree.Scan
