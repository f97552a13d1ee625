import MarkdownTree.Yaml.Text

/-!
# Tokens of YAML

The text of a document as tokens. Blocks are told by indentation: tokens that stand for the start and the end of a block
are put between the others. A key is only known as one by the colon after it, so the token that announces a key is put
before it afterwards; until then the place where a key could start is remembered, one for each level of brackets.

A text that cannot be taken apart to its end still gives the tokens before its defect, since what they say may be
malformed earlier on.
-/

namespace MarkdownTree.Yaml

/-- A token. -/
inductive Token where
  | blockSequence
  | blockMapping
  | blockEnd
  | sequenceOpen
  | sequenceClose
  | mappingOpen
  | mappingClose
  | comma
  | item
  | key
  | colon
  | anchor (name : List Char)
  | alias (name : List Char)
  | plain (text : List Char)
  | text (text : List Char)
  | documentStart
  | documentEnd
deriving DecidableEq, Repr

/-- A place in a text: what follows it, and where it stands. -/
structure Cursor where
  rest : List Char
  index : Nat := 0
  line : Nat := 0
  column : Nat := 0
deriving Repr

namespace Cursor

/-- The place after some characters, the rest being given. -/
def advance (c : Cursor) (rest : List Char) : List Char → Cursor
  | [] => { c with rest }
  | x :: xs =>
    let c := { c with index := c.index + 1 }
    if x = '\r' ∧ (xs ++ rest).head? = some '\n' then advance c rest xs
    else if isBreak x then advance { c with line := c.line + 1, column := 0 } rest xs
    else if x = '\ufeff' then advance c rest xs
    else advance { c with column := c.column + 1 } rest xs

/-- The place from which on the given text follows. -/
def reach (c : Cursor) (rest : List Char) : Cursor :=
  c.advance rest (c.rest.take (c.rest.length - rest.length))

/-- The place some characters on. -/
def skip (c : Cursor) (n : Nat) : Cursor :=
  c.reach (c.rest.drop n)

end Cursor

/-- A place where a key may have started: before which token, and whether it must have been one. -/
structure KeyPlace where
  token : Nat
  required : Bool
  index : Nat
  line : Nat
  column : Nat
deriving Repr

/-- How far a text has been taken apart. -/
structure Lexer where
  cursor : Cursor
  tokens : List Token := []
  /-- The number of brackets that are open. -/
  level : Nat := 0
  indent : Int := -1
  indents : List Int := []
  allowsKey : Bool := true
  keys : List (Nat × KeyPlace) := []
deriving Repr

namespace Lexer

/-- The text in front. -/
def rest (l : Lexer) : List Char :=
  l.cursor.rest

/-- The column in front. -/
def column (l : Lexer) : Int :=
  l.cursor.column

/-- The lexer further on. -/
def moved (l : Lexer) (rest : List Char) : Lexer :=
  { l with cursor := l.cursor.reach rest }

/-- The lexer with a token more. -/
def push (l : Lexer) (t : Token) : Lexer :=
  { l with tokens := l.tokens ++ [t] }

/-- Passes advance spaces, comments and, between tokens, line ends; after a line end a key may start. -/
def skipBlank : Nat → Lexer → Lexer
  | 0, l => l
  | fuel + 1, l =>
    let cs := l.rest.dropWhile (· == ' ')
    let cs := if cs.head? = some '#' then cs.dropWhile (!isBreak ·) else cs
    match takeBreak cs with
    | some (_, cs) => skipBlank fuel { l.moved cs with allowsKey := l.allowsKey || l.level == 0 }
    | none => l.moved cs

/-- No key that ends here can have started at a place: a key ends on its line, within 1024 characters. -/
def isStale (l : Lexer) (k : KeyPlace) : Bool :=
  k.line != l.cursor.line || l.cursor.index - k.index > 1024

/-- Forgets places where no key can have started any more. -/
def forgetStale (l : Lexer) : Option Lexer :=
  if l.keys.any fun k => l.isStale k.2 && k.2.required then none
  else some { l with keys := l.keys.filter fun k => !l.isStale k.2 }

/-- The tokens that are settled: those before any place where a key may have started. -/
def settled (l : Lexer) : List Token :=
  let places := (l.keys.filter fun k => !l.isStale k.2).map (·.2.token)
  l.tokens.take (places.foldl min l.tokens.length)

/-- Forgets the place at which a key of this level may have started. -/
def forgetKey (l : Lexer) : Option Lexer :=
  if l.keys.any fun k => k.1 == l.level && k.2.required then none
  else some { l with keys := l.keys.filter fun k => k.1 != l.level }

/-- Remembers that a key may start here. -/
def rememberKey (l : Lexer) : Option Lexer :=
  if l.allowsKey then do
    let l ← l.forgetKey
    let place : KeyPlace := {
      token := l.tokens.length
      required := l.level == 0 && l.indent == l.column
      index := l.cursor.index, line := l.cursor.line, column := l.cursor.column }
    return { l with keys := (l.level, place) :: l.keys }
  else some l

/-- Ends the blocks that are indented more than a column. -/
def unwind (l : Lexer) (column : Int) : List Int → Lexer
  | [] => l
  | outer :: indents =>
    if column < l.indent then unwind ({ l with indent := outer, indents }.push .blockEnd) column indents else l

/-- Ends the blocks that are indented more than a column, unless brackets are open. -/
def unwindTo (l : Lexer) (column : Int) : Lexer :=
  if l.level = 0 then l.unwind column l.indents else l

/-- Starts a block at a column that is indented more than the block around it; its token is put at a place. -/
def openBlock (l : Lexer) (column : Int) (place : Nat) (t : Token) : Lexer :=
  if l.indent < column then
    { l with
      indent := column
      indents := l.indent :: l.indents
      tokens := l.tokens.take place ++ t :: l.tokens.drop place }
  else l

/-- Takes some characters as a token. -/
def take (l : Lexer) (n : Nat) (t : Token) : Lexer :=
  (l.push t).moved (l.rest.drop n)

/-- Takes a separator of documents. -/
def takeSeparator (l : Lexer) (t : Token) : Option Lexer := do
  let l ← (l.unwindTo (-1)).forgetKey
  return { l with allowsKey := false }.take 3 t

/-- Takes an opening bracket. -/
def takeOpen (l : Lexer) (t : Token) : Option Lexer := do
  let l ← l.rememberKey
  return { l with level := l.level + 1, allowsKey := true }.take 1 t

/-- Takes a closing bracket. -/
def takeClose (l : Lexer) (t : Token) : Option Lexer := do
  let l ← l.forgetKey
  if l.level = 0 then none else return { l with level := l.level - 1, allowsKey := false }.take 1 t

/-- Takes a comma. -/
def takeComma (l : Lexer) : Option Lexer := do
  let l ← l.forgetKey
  return { l with allowsKey := true }.take 1 .comma

/-- Takes the mark of an item or of a key, which starts a block where it is indented more than the block around it. -/
def takeMark (l : Lexer) (block mark : Token) (allowsKey : Bool) : Option Lexer := do
  if l.level = 0 ∧ !l.allowsKey then none
  let l := if l.level = 0 then l.openBlock l.column l.tokens.length block else l
  let l ← l.forgetKey
  return { l with allowsKey }.take 1 mark

/-- Takes a colon: what started at the remembered place is a key. -/
def takeColon (l : Lexer) : Option Lexer :=
  match l.keys.lookup l.level with
  | some k =>
    let l := { l with
      keys := l.keys.filter (·.1 != l.level)
      tokens := l.tokens.take k.token ++ Token.key :: l.tokens.drop k.token
      allowsKey := false }
    let l := if l.level = 0 then l.openBlock k.column k.token .blockMapping else l
    some (l.take 1 .colon)
  | none => l.takeMark .blockMapping .colon (l.level == 0)

/-- A letter of a name. -/
def isNameChar (c : Char) : Bool :=
  c.isAlphanum || c == '-' || c == '_'

/-- Takes a name after its mark. -/
def takeName (l : Lexer) (t : List Char → Token) : Option Lexer := do
  let l ← l.rememberKey
  let name := (l.rest.drop 1).takeWhile isNameChar
  let after := (l.rest.drop 1).dropWhile isNameChar
  let closing := ['?', ':', ',', ']', '}', '%', '@', '\x60']
  if name.isEmpty || !(endsWord after || closing.contains (after.headD ' ')) then none
  else return { l with allowsKey := false }.push (t name) |>.moved after

/-- Takes a block text. -/
def takeBlock (l : Lexer) (fold : Bool) : Option Lexer := do
  let l ← { l with allowsKey := true }.forgetKey
  let (text, rest) ← block fold l.indent (l.rest.drop 1)
  return (l.push (.text text)).moved rest

/-- Takes a quoted text. -/
def takeQuoted (l : Lexer) (double : Bool) : Except Defect Lexer := do
  let l ← orMalformed l.rememberKey
  let (text, rest) ← quoted double (l.rest.length + 1) (l.rest.drop 1)
  return ({ l with allowsKey := false }.push (.text text)).moved rest

/-- The rest of an unquoted text after a gap; the cursor ends behind the gap after the last part. -/
def plainFrom (indent : Int) : Nat → Lexer → List Char → List Char × Lexer
  | 0, l, _ => ([], l)
  | fuel + 1, l, gap =>
    let (part, after) := if l.rest.head? = some '#' then ([], l.rest) else word (l.level != 0) l.rest
    if part.isEmpty then ([], l)
    else
      let (next, crossed, rest) := plainGap after
      let l := { l.moved rest with allowsKey := crossed }
      if next.isEmpty || rest.head? == some '#' || (l.level == 0 && l.column < indent) then (gap ++ part, l)
      else
        let (text, l) := plainFrom indent fuel l next
        (gap ++ part ++ text, l)

/-- Takes an unquoted text. -/
def takePlain (l : Lexer) : Option Lexer := do
  let l ← l.rememberKey
  let (text, m) := plainFrom (l.indent + 1) (l.rest.length + 1) { l with allowsKey := false } []
  return m.push (.plain text)

/-- An unquoted text can start here. -/
def startsPlain (l : Lexer) : Bool :=
  match l.rest with
  | [] => false
  | c :: cs =>
    !(Text.isGap c || isBreak c || "-?:,[]\x7b\x7d#&*!|>\x27\"%@\x60".contains c)
      || (!endsWord cs && (c == '-' || (l.level == 0 && (c == '?' || c == ':'))))

/-- Takes the token in front, which is no quoted text. -/
def takeUnquoted (l : Lexer) (c : Char) (cs : List Char) : Option Lexer :=
  let inFlow := l.level != 0
  if c = '%' ∧ l.column = 0 then none
  else if l.column = 0 ∧ isSeparator l.rest then l.takeSeparator (if c = '-' then .documentStart else .documentEnd)
  else if c = '[' then l.takeOpen .sequenceOpen
  else if c = '\x7b' then l.takeOpen .mappingOpen
  else if c = ']' then l.takeClose .sequenceClose
  else if c = '\x7d' then l.takeClose .mappingClose
  else if c = ',' then l.takeComma
  else if c = '-' ∧ endsWord cs then l.takeMark .blockSequence .item true
  else if c = '?' ∧ (inFlow ∨ endsWord cs) then l.takeMark .blockMapping .key (l.level == 0)
  else if c = ':' ∧ (inFlow ∨ endsWord cs) then l.takeColon
  else if c = '*' then l.takeName .alias
  else if c = '&' then l.takeName .anchor
  else if c = '|' ∧ !inFlow then l.takeBlock false
  else if c = '>' ∧ !inFlow then l.takeBlock true
  else if l.startsPlain then l.takePlain
  else none

/-- Takes the token in front. -/
def takeToken (l : Lexer) : Except Defect Lexer :=
  match l.rest with
  | [] => .error .malformed
  | c :: cs =>
    if c = '\'' then l.takeQuoted false
    else if c = '"' then l.takeQuoted true
    else orMalformed (l.takeUnquoted c cs)

/-- Takes the next token, or ends all blocks at the end of the text. -/
def step (l : Lexer) : Except Defect (Lexer × Bool) := do
  let l ← orMalformed (skipBlank (l.rest.length + 1) l).forgetStale
  let l := l.unwindTo l.column
  if l.rest.isEmpty then return (← orMalformed (l.unwindTo (-1)).forgetKey, true)
  else return (← l.takeToken, false)

/-- Takes all tokens up to the first defect. Every step passes over a character, so the length of the text bounds the
steps. -/
def run : Nat → Lexer → List Token × Option Defect
  | 0, _ => ([], some .malformed)
  | fuel + 1, l =>
    match l.step with
    | .ok (l, true) => (l.tokens, none)
    | .ok (l, false) => run fuel l
    | .error defect => (l.settled, some defect)

end Lexer

/-- The tokens of a text, and the defect at which they end if it cannot be taken apart to its end. -/
def tokens (cs : List Char) : List Token × Option Defect :=
  let cs := if cs.head? = some '\ufeff' then cs.drop 1 else cs
  Lexer.run (cs.length + 2) { cursor := { rest := cs } }

end MarkdownTree.Yaml
