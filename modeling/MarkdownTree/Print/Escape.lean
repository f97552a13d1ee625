import MarkdownTree.Text.Blank
import MarkdownTree.Text.Digit

/-!
# Written forms

How texts, destinations, titles, code spans and fenced code are written so that they read back as what they are.
-/

namespace MarkdownTree.Print

open Text

/-- Characters that a backslash precedes wherever they stand. -/
def isSpecial (atx : Bool) (c : Char) : Bool :=
  c == '\\' || c == '\x60' || c == '*' || c == '_' || c == '[' || c == ']' || c == '<' || (atx && c == '#')

/-- Characters that a backslash precedes at the start of a line. -/
def isLineMark (c : Char) : Bool :=
  c == '#' || c == '>' || c == '+' || c == '-' || c == '=' || c == '~'

/-- A text with a backslash before each character that satisfies a test. -/
def escapeWhere (p : Char → Bool) (cs : List Char) : List Char :=
  cs.flatMap fun c => if p c then ['\\', c] else [c]

/-- A line that cannot be taken for the start of a block: its first mark, or the mark after its number, is escaped. -/
def escapeLineStart (line : List Char) : List Char :=
  match line with
  | [] => []
  | c :: _ =>
    if isLineMark c then '\\' :: line
    else
      let ds := line.takeWhile isDigit
      match line.drop ds.length with
      | d :: rest =>
        if 1 ≤ ds.length ∧ ds.length ≤ 9 ∧ (d = '.' ∨ d = ')') then ds ++ '\\' :: d :: rest else line
      | [] => line

/-- The lines of a text, escaped; the first is the start of a line only if `atStart` says so. -/
def escapeLines (atx atStart : Bool) : List (List Char) → List (List Char)
  | [] => []
  | line :: lines =>
    let escaped := escapeWhere (isSpecial atx) line
    (if atStart then escapeLineStart escaped else escaped) :: escapeLines atx true lines

/-- A text written so that it reads back as plain text, at the start of a line or not, in a marked heading or not. -/
def escape (atStart atx : Bool) (cs : List Char) : List Char :=
  join ['\n'] (escapeLines atx atStart (fields '\n' cs))

/-- The length of the longest run of a character. -/
def longestRun (mark : Char) (run best : Nat) : List Char → Nat
  | [] => max run best
  | c :: cs => if c = mark then longestRun mark (run + 1) best cs else longestRun mark 0 (max run best) cs

/-- Characters that a destination can only hold between angle brackets. -/
def needsBrackets (c : Char) : Bool :=
  c == ' ' || c == '<' || c == '>' || c.toNat < 0x20

/-- A link destination as it is written. -/
def destinationText (destination : List Char) : List Char :=
  if destination.isEmpty || destination.any needsBrackets then
    '<' :: escapeWhere (fun c => c == '\\' || c == '<' || c == '>') destination ++ ['>']
  else escapeWhere (fun c => c == '\\' || c == '(' || c == ')') destination

/-- A link title as it is written, with the space before it. -/
def titleText : Option (List Char) → List Char
  | none => []
  | some title => ' ' :: '"' :: escapeWhere (fun c => c == '\\' || c == '"') title ++ ['"']

/-- What follows the closing bracket of a link or an image. -/
def tailText (destination : List Char) (title : Option (List Char)) : List Char :=
  '(' :: destinationText destination ++ titleText title ++ [')']

/-- A text on one line. -/
def flatten (cs : List Char) : List Char :=
  cs.map fun c => if c = '\n' then ' ' else c

/-- A code value needs a space on either side: it has a backtick at an end, or would lose the spaces it has. -/
def needsPadding (value : List Char) : Bool :=
  value.head? == some '\x60' || value.getLast? == some '\x60'
    || (2 ≤ value.length && value.head? == some ' ' && value.getLast? == some ' ' && value.any (· != ' '))

/-- A code span as it is written: between runs of backticks that its value does not hold. -/
def codeSpanText (value : List Char) : List Char :=
  let value := flatten value
  let fence := List.replicate (longestRun '\x60' 0 0 value + 1) '\x60'
  fence ++ (if needsPadding value then ' ' :: value ++ [' '] else value) ++ fence

/-- A fenced code block: the fence is longer than any run of its mark in the value. -/
def fencedText (mark : Char) (info value : List Char) : List Char :=
  let fence := List.replicate (max 3 (longestRun mark 0 0 value + 1)) mark
  let body := if value.isEmpty then [] else value ++ ['\n']
  fence ++ info ++ '\n' :: body ++ fence

/-- The lines of a quote, from the text inside it. -/
def quoteText (content : List Char) : List Char :=
  if content.isEmpty then ['>']
  else join ['\n'] ((fields '\n' content).map fun line => if line.isEmpty then ['>'] else '>' :: ' ' :: line)

/-- The lines of a list item, from its marker, its task box and the text inside it. -/
def itemText (marker box content : List Char) : List Char :=
  if content.isEmpty then trimEnd (marker ++ box)
  else
    match fields '\n' content with
    | [] => []
    | line :: lines =>
      let indent := List.replicate marker.length ' '
      join ['\n'] ((marker ++ box ++ line) :: lines.map fun l => if l.isEmpty then [] else indent ++ l)

end MarkdownTree.Print
