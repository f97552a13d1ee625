import MarkdownTree.Scan.Line
import MarkdownTree.Text.Digit

/-!
# Signs of blocks

What the start of a line says about the block that it opens: heading marks, fences, rules, underlines, list markers,
task boxes and front matter fences. All of them look at a text without its indentation.
-/

namespace MarkdownTree.Scan

open Text

/-- The text ends here or goes on with a space or tab. -/
def endsOrGap : List Char → Bool
  | [] => true
  | c :: _ => isGap c

/-- The depth of a heading mark: one to six number signs before a gap or the end. -/
def headingDepth? (cs : List Char) : Option Nat :=
  let n := (cs.takeWhile (· == '#')).length
  if 1 ≤ n ∧ n ≤ 6 ∧ endsOrGap (cs.drop n) then some n else none

/-- One to six number signs with a text directly after them. -/
def isTightHeading (cs : List Char) : Bool :=
  let n := (cs.takeWhile (· == '#')).length
  match cs.drop n with
  | [] => false
  | c :: _ => 1 ≤ n && n ≤ 6 && !isBlank c

/-- The text of a heading without closing number signs, which stand alone or after a gap. -/
def headingText (cs : List Char) : List Char :=
  let body := dropEndWhile isGap cs
  let rest := dropEndWhile (· == '#') body
  if rest.length < body.length ∧ (rest = [] ∨ rest.getLast?.any isGap) then dropEndWhile isGap rest else trimEnd cs

/-- A code fence: its character, its length, and the text after it. -/
structure Fence where
  mark : Char
  size : Nat
  info : List Char
deriving DecidableEq, Repr

namespace Fence

/-- The fence as it is written. -/
def run (f : Fence) : List Char :=
  List.replicate f.size f.mark

/-- The fence at the start of a text: three or more backticks or tildes. -/
def read? : List Char → Option Fence
  | [] => none
  | c :: cs =>
    let n := (cs.takeWhile (· == c)).length + 1
    if (c = '\x60' ∨ c = '~') ∧ 3 ≤ n then some ⟨c, n, (c :: cs).drop n⟩ else none

/-- A fence of backticks cannot have a backtick after it when it opens a block. -/
def canOpen (f : Fence) : Bool :=
  !(f.mark == '\x60' && f.info.contains '\x60')

/-- The fence at the start of a text, if it opens a code block. -/
def opening? (cs : List Char) : Option Fence :=
  (read? cs).filter canOpen

/-- A text that closes the fence: at least as many of its characters, then nothing but gaps. -/
def closedBy (f : Fence) (cs : List Char) : Bool :=
  let n := (cs.takeWhile (· == f.mark)).length
  f.size ≤ n && (cs.drop n).all isGap

end Fence

/-- A rule: three or more of one mark, with nothing but gaps between and after them. -/
def isRule : List Char → Bool
  | [] => false
  | c :: cs => (c == '-' || c == '*' || c == '_') && cs.all (fun d => d == c || isGap d) && 2 ≤ cs.count c

/-- The depth of a heading underline: equals signs for the first, hyphens for the second. -/
def underlineDepth? : List Char → Option Nat
  | [] => none
  | c :: cs =>
    if (c = '=' ∨ c = '-') ∧ (cs.dropWhile (· == c)).all isGap then some (if c = '=' then 1 else 2) else none

/-- A list marker at the start of a text: its symbol, its number if it is ordered, and its length. -/
def marker? (cs : List Char) : Option (Char × Option Nat × Nat) :=
  match cs with
  | [] => none
  | c :: rest =>
    if (c = '-' ∨ c = '+' ∨ c = '*') ∧ endsOrGap rest then some (c, none, 1)
    else
      let ds := cs.takeWhile isDigit
      match cs.drop ds.length with
      | d :: after =>
        if 1 ≤ ds.length ∧ ds.length ≤ 9 ∧ (d = '.' ∨ d = ')') ∧ endsOrGap after then
          some (d, some (natOfDigits ds), ds.length + 1)
        else none
      | [] => none

/-- A task box before a text: whether it is checked, and its length with the gaps after it. -/
def taskBox? : List Char → Option (Bool × Nat)
  | '[' :: c :: ']' :: rest =>
    let gaps := (rest.takeWhile isGap).length
    match rest.drop gaps with
    | d :: _ =>
      if (c = ' ' ∨ c = 'x' ∨ c = 'X') ∧ 1 ≤ gaps ∧ !isBlank d then some (c != ' ', gaps + 3) else none
    | [] => none
  | _ => none

/-- A line that opens front matter. -/
def opensFrontMatter (cs : List Char) : Bool :=
  ['-', '-', '-'].isPrefixOf cs && (cs.drop 3).all isGap

/-- A line that closes front matter. -/
def closesFrontMatter (cs : List Char) : Bool :=
  (['-', '-', '-'].isPrefixOf cs || ['.', '.', '.'].isPrefixOf cs) && (cs.drop 3).all isGap

/-- A list marker in its line: where it stands, the column at which its item's content starts, and that content. -/
structure Marker where
  symbol : Char
  number : Option Nat
  start : Nat
  stop : Nat
  contentIndent : Rat
  content : Line
deriving DecidableEq, Repr

namespace Marker

/-- Ordered markers have a number. -/
def ordered (m : Marker) : Bool :=
  m.number.isSome

/-- Two markers of one list. -/
def continues (m n : Marker) : Bool :=
  m.ordered == n.ordered && m.symbol == n.symbol

/-- The marker that a line starts with; a rule is no marker. Up to four columns of space after the marker belong to
it, and of more only one does. -/
def read? (tab : Rat) (l : Line) : Option Marker :=
  let indent := l.indent tab
  let body := l.trimStart
  if 4 ≤ indent ∨ isRule body.text then none
  else
    (marker? body.text).map fun (symbol, number, size) =>
      let rest := body.drop size
      let width := settle (indent + size)
      let spaces := rest.indent tab
      if rest.isBlank then ⟨symbol, number, body.offset, rest.offset, settle (width + 1), ⟨[], rest.stop⟩⟩
      else if 4 < spaces then ⟨symbol, number, body.offset, rest.offset, settle (width + 1), rest.dropColumns tab 1⟩
      else ⟨symbol, number, body.offset, rest.offset, settle (width + spaces), rest.dropColumns tab spaces⟩

end Marker

end MarkdownTree.Scan
