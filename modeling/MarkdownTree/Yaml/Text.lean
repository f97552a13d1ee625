import MarkdownTree.Text.Blank
import MarkdownTree.Value.Json
import MarkdownTree.Yaml.Defect

/-!
# Texts in YAML

How quoted, unquoted and block texts are read. Each reader takes what is in front of it and gives the text that it
stands for and what follows.
-/

namespace MarkdownTree.Yaml

/-- Characters that end a line. -/
def isBreak (c : Char) : Bool :=
  c == '\n' || c == '\r' || c == '\u0085' || c == '\u2028' || c == '\u2029'

/-- A word ends here: the text does, or there is a gap or a line end. -/
def endsWord : List Char → Bool
  | [] => true
  | c :: _ => Text.isGap c || isBreak c

/-- A line ends here. -/
def endsLine : List Char → Bool
  | [] => true
  | c :: _ => isBreak c

/-- The line end in front, as it counts in texts, and what follows. -/
def takeBreak : List Char → Option (Char × List Char)
  | '\r' :: '\n' :: cs => some ('\n', cs)
  | c :: cs =>
    if c = '\u2028' ∨ c = '\u2029' then some (c, cs)
    else if isBreak c then some ('\n', cs)
    else none
  | [] => none

/-- A line that separates documents starts here. -/
def isSeparator (cs : List Char) : Bool :=
  (cs.take 3 == ['-', '-', '-'] || cs.take 3 == ['.', '.', '.']) && endsWord (cs.drop 3)

/-- What a line end and the line ends after it count for: one alone is a space. -/
def folded (first : Char) (rest : List Char) : List Char :=
  (if first ≠ '\n' then [first] else if rest.isEmpty then [' '] else []) ++ rest

/-- A text put in front of what a reader gave. -/
def prepend (cs : List Char) (read : List Char × List Char) : List Char × List Char :=
  (cs ++ read.1, read.2)

/-! ### Quoted texts -/

/-- The line ends after a line end between quotes, each with the gaps around it. -/
def quotedBreaks : Nat → List Char → Option (List Char × List Char)
  | 0, _ => none
  | fuel + 1, cs =>
    if isSeparator cs then none
    else
      let cs := cs.dropWhile Text.isGap
      match takeBreak cs with
      | some (b, cs) => (quotedBreaks fuel cs).map (prepend [b])
      | none => some ([], cs)

/-- The character that an escape of one letter stands for. -/
def escaped? : Char → Option Char
  | '0' => some '\x00'
  | 'a' => some '\x07'
  | 'b' => some '\x08'
  | 't' | '\t' => some '\t'
  | 'n' => some '\n'
  | 'v' => some '\x0b'
  | 'f' => some '\x0c'
  | 'r' => some '\r'
  | 'e' => some '\x1b'
  | ' ' => some ' '
  | '"' => some '"'
  | '\\' => some '\\'
  | '/' => some '/'
  | 'N' => some '\u0085'
  | '_' => some '\u00a0'
  | 'L' => some '\u2028'
  | 'P' => some '\u2029'
  | _ => none

/-- How many digits follow the letter of a numeric escape. -/
def escapeWidth? : Char → Option Nat
  | 'x' => some 2
  | 'u' => some 4
  | 'U' => some 8
  | _ => none

/-- What follows a backslash between double quotes. -/
def escape (cs : List Char) : Except Defect (List Char × List Char) :=
  match takeBreak cs, cs with
  | some (_, cs), _ => orMalformed (quotedBreaks (cs.length + 1) cs)
  | none, [] => .error .malformed
  | none, c :: cs =>
    match escaped? c, escapeWidth? c with
    | some e, _ => .ok ([e], cs)
    | none, some width => do
      let digits ← orMalformed ((cs.take width).mapM Value.Json.hexValue?)
      let number := digits.foldl (fun n d => 16 * n + d) 0
      if digits.length < width then .error .malformed
      else if 0x110000 ≤ number then .error (.codePoint number)
      else return ([Char.ofNat number], cs.drop width)
    | none, none => .error .malformed

/-- The text up to a closing quote, and what follows the quote. -/
def quoted (double : Bool) : Nat → List Char → Except Defect (List Char × List Char)
  | 0, _ => .error .malformed
  | fuel + 1, cs =>
    match cs with
    | [] => .error .malformed
    | c :: rest =>
      if c = '"' ∧ double then .ok ([], rest)
      else if c = '\'' ∧ !double then
        match rest with
        | '\'' :: rest => (quoted double fuel rest).map (prepend ['\''])
        | _ => .ok ([], rest)
      else if c = '\\' ∧ double then do
        let (text, rest) ← escape rest
        (quoted double fuel rest).map (prepend text)
      else if Text.isGap c || isBreak c then do
        let after := cs.dropWhile Text.isGap
        match takeBreak after with
        | some (b, after) =>
          let (breaks, after) ← orMalformed (quotedBreaks (after.length + 1) after)
          (quoted double fuel after).map (prepend (folded b breaks))
        | none => (quoted double fuel after).map (prepend (cs.takeWhile Text.isGap))
      else (quoted double fuel rest).map (prepend [c])

/-! ### Block texts -/

/-- What becomes of the line ends at the end of a block text. -/
inductive Chomping where
  | clip
  | strip
  | keep
deriving DecidableEq, Repr

/-- The sign of a chomping. -/
def chomping? : Char → Option Chomping
  | '+' => some .keep
  | '-' => some .strip
  | _ => none

/-- The width of an indentation that is given by a digit. -/
def width? (c : Char) : Option Nat :=
  if '1' ≤ c ∧ c ≤ '9' then some (c.toNat - '0'.toNat) else none

/-- What stands after the mark of a block text: a chomping and an indentation, in either order. -/
def blockHeader (cs : List Char) : Chomping × Option Nat × List Char :=
  match cs with
  | [] => (.clip, none, [])
  | c :: rest =>
    match chomping? c, width? c with
    | some chomping, _ =>
      match rest with
      | d :: more =>
        match width? d with
        | some n => (chomping, some n, more)
        | none => (chomping, none, rest)
      | [] => (chomping, none, [])
    | none, some n =>
      match rest with
      | d :: more =>
        match chomping? d with
        | some chomping => (chomping, some n, more)
        | none => (.clip, some n, rest)
      | [] => (.clip, some n, [])
    | none, none => (.clip, none, cs)

/-- The rest of the header's line, which holds nothing but a comment. -/
def skipHeaderLine (cs : List Char) : Option (List Char) :=
  if !endsLine cs && cs.headD ' ' ≠ ' ' then none
  else
    let cs := cs.dropWhile (· == ' ')
    let cs := if cs.head? = some '#' then cs.dropWhile (!isBreak ·) else cs
    if endsLine cs then some (((takeBreak cs).map (·.2)).getD cs) else none

/-- Lines of spaces: their line ends, the widest indentation, the column that is reached, and what follows. -/
def blockLead (column widest : Nat) : List Char → List Char × Nat × Nat × List Char
  | [] => ([], widest, column, [])
  | ' ' :: cs => blockLead (column + 1) (max widest (column + 1)) cs
  | '\r' :: '\n' :: cs => let (bs, r) := blockLead 0 widest cs; ('\n' :: bs, r)
  | c :: cs =>
    if isBreak c then
      let (bs, r) := blockLead 0 widest cs
      ((if c = '\u2028' ∨ c = '\u2029' then c else '\n') :: bs, r)
    else ([], widest, column, c :: cs)

/-- Lines of spaces up to a given indentation: their line ends, the column that is reached, and what follows. -/
def blockBreaks (indent column : Nat) : List Char → List Char × Nat × List Char
  | [] => ([], column, [])
  | '\r' :: '\n' :: cs => let (bs, r) := blockBreaks indent 0 cs; ('\n' :: bs, r)
  | c :: cs =>
    if c = ' ' ∧ column < indent then blockBreaks indent (column + 1) cs
    else if isBreak c then
      let (bs, r) := blockBreaks indent 0 cs
      ((if c = '\u2028' ∨ c = '\u2029' then c else '\n') :: bs, r)
    else ([], column, c :: cs)

/-- The lines of a block text from the column reached on, after the given line ends: the text, its last line end, the
line ends after it, and what follows. -/
def blockLines (fold : Bool) (indent : Nat) :
    Nat → List Char → Nat → List Char → List Char × List Char × List Char × List Char
  | 0, breaks, _, cs => ([], [], breaks, cs)
  | fuel + 1, breaks, column, cs =>
    if column ≠ indent ∨ cs.isEmpty then ([], [], breaks, cs)
    else
      let line := cs.takeWhile (!isBreak ·)
      let rest := cs.dropWhile (!isBreak ·)
      let last := ((takeBreak rest).map (·.1)).toList
      let (after, column, rest) := blockBreaks indent 0 (((takeBreak rest).map (·.2)).getD rest)
      if column = indent ∧ !rest.isEmpty then
        let foldsHere := fold && last == ['\n'] && !Text.isGap (cs.headD ' ') && !Text.isGap (rest.headD ' ')
        let joint := if foldsHere then (if after.isEmpty then [' '] else []) else last
        let (text, last, end_, rest) := blockLines fold indent fuel after column rest
        (breaks ++ line ++ joint ++ text, last, end_, rest)
      else (breaks ++ line, last, after, rest)

/-- The block text after its mark, in a block indented as given. -/
def block (fold : Bool) (outer : Int) (cs : List Char) : Option (List Char × List Char) := do
  let (chomping, width, cs) := blockHeader cs
  let cs ← skipHeaderLine cs
  let least := (max (outer + 1) 1).toNat
  let (indent, breaks, column, cs) := match width with
    | some n => (least + n - 1, blockBreaks (least + n - 1) 0 cs)
    | none => let (breaks, widest, r) := blockLead 0 0 cs; (max least widest, breaks, r)
  let (text, last, after, rest) := blockLines fold indent (cs.length + 1) breaks column cs
  return match chomping with
    | .strip => (text, rest)
    | .clip => (text ++ last, rest)
    | .keep => (text ++ last ++ after, rest)

/-! ### Unquoted texts -/

/-- Characters that end an unquoted text within brackets. -/
def isFlowMark (c : Char) : Bool :=
  c == ',' || c == '[' || c == ']' || c == '{' || c == '}'

/-- The colon before the given text ends an unquoted text. -/
def endsKey (flow : Bool) (cs : List Char) : Bool :=
  endsWord cs || (flow && isFlowMark (cs.headD ' '))

/-- The part of an unquoted text up to the next gap, and what follows. -/
def word (flow : Bool) : List Char → List Char × List Char
  | [] => ([], [])
  | c :: cs =>
    if Text.isGap c || isBreak c || (c == ':' && endsKey flow cs) || (flow && (isFlowMark c || c == '?')) then
      ([], c :: cs)
    else
      let (w, rest) := word flow cs
      (c :: w, rest)

/-- Line ends and the spaces after them; `none` at a line that separates documents. -/
def plainBreaks : Nat → List Char → Option (List Char) × List Char
  | 0, cs => (some [], cs)
  | fuel + 1, cs =>
    let cs := cs.dropWhile (· == ' ')
    match takeBreak cs with
    | none => (some [], cs)
    | some (b, cs) =>
      if isSeparator cs then (none, cs)
      else
        let (bs, rest) := plainBreaks fuel cs
        (bs.map (b :: ·), rest)

/-- The gap after a part of an unquoted text: what it counts for, whether a line ends in it, and what follows. -/
def plainGap (cs : List Char) : List Char × Bool × List Char :=
  let spaces := cs.takeWhile (· == ' ')
  let cs := cs.dropWhile (· == ' ')
  match takeBreak cs with
  | none => (spaces, false, cs)
  | some (b, cs) =>
    if isSeparator cs then ([], true, cs)
    else
      match plainBreaks (cs.length + 1) cs with
      | (some bs, rest) => (folded b bs, true, rest)
      | (none, rest) => ([], true, rest)

end MarkdownTree.Yaml
