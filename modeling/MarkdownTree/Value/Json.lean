import MarkdownTree.Value

/-!
# JSON

Writing values as JSON text, on one line or indented, and reading JSON text back. Texts keep every character but the
controls, a quote and a backslash; of a key written twice the last value wins.
-/

namespace MarkdownTree.Value.Json

/-! ### Writing -/

/-- One character inside a JSON string. -/
def encodeChar (c : Char) : List Char :=
  if c = '"' then ['\\', '"']
  else if c = '\\' then ['\\', '\\']
  else if c = '\n' then ['\\', 'n']
  else if c = '\r' then ['\\', 'r']
  else if c = '\t' then ['\\', 't']
  else if c = '\x08' then ['\\', 'b']
  else if c = '\x0c' then ['\\', 'f']
  else if c.toNat < 0x20 then '\\' :: 'u' :: Text.hexDigits 4 c.toNat
  else [c]

/-- A JSON string. -/
def encodeText (s : String) : List Char :=
  '"' :: s.toList.flatMap encodeChar ++ ['"']

/-- How items are set out: on one line, or each on a line of its own with some text before it for every level. -/
structure Layout where
  unit : Option (List Char)
deriving DecidableEq, Repr

/-- The layout on one line. -/
def Layout.line : Layout :=
  ⟨none⟩

/-- The layout with so many spaces per level. -/
def Layout.spaced (width : Nat) : Layout :=
  ⟨some (List.replicate width ' ')⟩

/-- The layout that a caller asks for: with a number of spaces or with a text per level, or on one line. -/
def Layout.ofValue? : Value → Option Layout
  | .null => some .line
  | .text s => some ⟨some s.toList⟩
  | v => v.integer?.map fun n => .spaced n.toNat

/-- What comes before an item at the given level: a new line with its indentation, or nothing. -/
def Layout.lead (layout : Layout) (level : Nat) : List Char :=
  match layout.unit with
  | none => []
  | some unit => '\n' :: (List.replicate level unit).flatten

/-- What stands between two items at the given level. -/
def Layout.between (layout : Layout) (level : Nat) : List Char :=
  match layout.unit with
  | none => [',', ' ']
  | some _ => ',' :: layout.lead level

/-- A number with a fraction; what JSON has no number for is written as a word. -/
def floatText : Floating → String
  | .finite b => b.text
  | .infinite negative => if negative then "-Infinity" else "Infinity"
  | .nan => "NaN"

/-- The text of a map key. -/
def encodeKey : Value → List Char
  | .text s => encodeText s
  | .bool b => encodeText (if b then "true" else "false")
  | .int n => encodeText (toString n)
  | .float x => encodeText (floatText x)
  | _ => encodeText "null"

mutual

/-- The JSON text of a value that stands at the given level. -/
def encode (layout : Layout) (level : Nat) : Value → List Char
  | .null => "null".toList
  | .bool b => (if b then "true" else "false").toList
  | .int n => (toString n).toList
  | .float x => (floatText x).toList
  | .text s => encodeText s
  | .list [] => ['[', ']']
  | .list (item :: items) =>
    '[' :: layout.lead (level + 1) ++ encode layout (level + 1) item
      ++ encodeItems layout (level + 1) items ++ layout.lead level ++ [']']
  | .map [] => ['{', '}']
  | .map ((key, value) :: entries) =>
    '{' :: layout.lead (level + 1) ++ encodeKey key ++ ':' :: ' ' :: encode layout (level + 1) value
      ++ encodeEntries layout (level + 1) entries ++ layout.lead level ++ ['}']

/-- The items after the first, each after its separator. -/
def encodeItems (layout : Layout) (level : Nat) : List Value → List Char
  | [] => []
  | item :: items => layout.between level ++ encode layout level item ++ encodeItems layout level items

/-- The entries after the first, each after its separator. -/
def encodeEntries (layout : Layout) (level : Nat) : List (Value × Value) → List Char
  | [] => []
  | (key, value) :: entries =>
    layout.between level ++ encodeKey key ++ ':' :: ' ' :: encode layout level value
      ++ encodeEntries layout level entries

end

/-- The JSON text of a value. -/
def write (layout : Layout) (v : Value) : String :=
  String.ofList (encode layout 0 v)

/-! ### Reading -/

/-- The blanks of JSON. -/
def isSpace (c : Char) : Bool :=
  c == ' ' || c == '\t' || c == '\n' || c == '\r'

/-- The value of a hexadecimal digit. -/
def hexValue? (c : Char) : Option Nat :=
  if '0' ≤ c ∧ c ≤ '9' then some (c.toNat - 48)
  else if 'a' ≤ c ∧ c ≤ 'f' then some (c.toNat - 87)
  else if 'A' ≤ c ∧ c ≤ 'F' then some (c.toNat - 55)
  else none

/-- The number written by four hexadecimal digits, and what follows them. -/
def hex4? : List Char → Option (Nat × List Char)
  | a :: b :: c :: d :: rest => do
    let a ← hexValue? a
    let b ← hexValue? b
    let c ← hexValue? c
    let d ← hexValue? d
    return (((a * 16 + b) * 16 + c) * 16 + d, rest)
  | _ => none

/-- The character of a four-digit escape. Two halves of a pair make one character; a lone half has none of its own
and reads as the replacement character. -/
def unit? (rest : List Char) : Option (Char × List Char) := do
  let (high, rest) ← hex4? rest
  if 0xD800 ≤ high ∧ high < 0xDC00 then
    match rest with
    | '\\' :: 'u' :: more =>
      match hex4? more with
      | some (low, after) =>
        if 0xDC00 ≤ low ∧ low < 0xE000 then
          return (Char.ofNat (0x10000 + (high - 0xD800) * 0x400 + (low - 0xDC00)), after)
        else
          return ('\uFFFD', rest)
      | none => return ('\uFFFD', rest)
    | _ => return ('\uFFFD', rest)
  else if 0xDC00 ≤ high ∧ high < 0xE000 then
    return ('\uFFFD', rest)
  else
    return (Char.ofNat high, rest)

/-- The characters of a string up to its closing quote, and what follows. -/
def decodeText : Nat → List Char → Option (List Char × List Char)
  | 0, _ => none
  | _, [] => none
  | _, '"' :: rest => some ([], rest)
  | fuel + 1, '\\' :: e :: rest =>
    let simple := fun c : Char => (decodeText fuel rest).map fun (cs, after) => (c :: cs, after)
    if e = '"' ∨ e = '\\' ∨ e = '/' then simple e
    else if e = 'n' then simple '\n'
    else if e = 'r' then simple '\r'
    else if e = 't' then simple '\t'
    else if e = 'b' then simple '\x08'
    else if e = 'f' then simple '\x0c'
    else if e = 'u' then
      match unit? rest with
      | some (c, rest) => (decodeText fuel rest).map fun (cs, after) => (c :: cs, after)
      | none => none
    else none
  | fuel + 1, c :: rest =>
    if c.toNat < 0x20 ∨ c = '\\' then none
    else (decodeText fuel rest).map fun (cs, after) => (c :: cs, after)

/-- The digits of a sign and digits after an exponent mark, if they are there. -/
def exponent? : List Char → Option (Int × List Char)
  | e :: rest =>
    if e = 'e' ∨ e = 'E' then
      let (sign, rest) := match rest with
        | '-' :: r => ((-1 : Int), r)
        | '+' :: r => (1, r)
        | r => (1, r)
      let ds := rest.takeWhile Char.isDigit
      if ds.isEmpty then none
      else some (sign * ((String.ofList ds).toNat?.getD 0 : Nat), rest.drop ds.length)
    else none
  | [] => none

/-- A number, which is an integer unless it has a fraction or an exponent. -/
def number? (cs : List Char) : Option (Value × List Char) :=
  let negative := cs.head? == some '-'
  let cs := if negative then cs.drop 1 else cs
  let whole := if cs.head? == some '0' then ['0'] else cs.takeWhile Char.isDigit
  if whole.isEmpty then none
  else
    let rest := cs.drop whole.length
    let fraction := if rest.head? == some '.' then (rest.drop 1).takeWhile Char.isDigit else []
    let rest := if fraction.isEmpty then rest else rest.drop (fraction.length + 1)
    let power := exponent? rest
    if fraction.isEmpty && power.isNone then
      let n : Int := ((String.ofList whole).toNat?.getD 0 : Nat)
      some (.int (if negative then -n else n), rest)
    else
      let (e, rest) := power.getD (0, rest)
      let digits := (String.ofList (whole ++ fraction)).toNat?.getD 0
      some (.float (.read negative digits (e - fraction.length)), rest)

mutual

/-- The value at the start of a text, and what follows it. -/
def decode : Nat → List Char → Option (Value × List Char)
  | 0, _ => none
  | fuel + 1, cs =>
    match cs.dropWhile isSpace with
    | 'n' :: 'u' :: 'l' :: 'l' :: rest => some (.null, rest)
    | 't' :: 'r' :: 'u' :: 'e' :: rest => some (.bool true, rest)
    | 'f' :: 'a' :: 'l' :: 's' :: 'e' :: rest => some (.bool false, rest)
    | 'N' :: 'a' :: 'N' :: rest => some (.float .nan, rest)
    | 'I' :: 'n' :: 'f' :: 'i' :: 'n' :: 'i' :: 't' :: 'y' :: rest => some (.float (.infinite false), rest)
    | '-' :: 'I' :: 'n' :: 'f' :: 'i' :: 'n' :: 'i' :: 't' :: 'y' :: rest => some (.float (.infinite true), rest)
    | '"' :: rest => (decodeText (fuel + 1) rest).map fun (s, after) => (.text (String.ofList s), after)
    | '[' :: rest =>
      match rest.dropWhile isSpace with
      | ']' :: after => some (.list [], after)
      | _ => (decodeItems fuel rest).map fun (items, after) => (.list items, after)
    | '{' :: rest =>
      match rest.dropWhile isSpace with
      | '}' :: after => some (.map [], after)
      | _ => (decodeEntries fuel rest).map fun (entries, after) => (ofEntries entries, after)
    | rest => number? rest

/-- The items of a list up to its closing bracket. -/
def decodeItems : Nat → List Char → Option (List Value × List Char)
  | 0, _ => none
  | fuel + 1, cs => do
    let (item, rest) ← decode fuel cs
    match rest.dropWhile isSpace with
    | ',' :: rest =>
      let (items, after) ← decodeItems fuel rest
      return (item :: items, after)
    | ']' :: after => return ([item], after)
    | _ => none

/-- The entries of a map up to its closing brace. -/
def decodeEntries : Nat → List Char → Option (List (Value × Value) × List Char)
  | 0, _ => none
  | fuel + 1, cs =>
    match cs.dropWhile isSpace with
    | '"' :: rest => do
      let (key, rest) ← decodeText (fuel + 1) rest
      match rest.dropWhile isSpace with
      | ':' :: rest =>
        let (value, rest) ← decode fuel rest
        match rest.dropWhile isSpace with
        | ',' :: rest =>
          let (entries, after) ← decodeEntries fuel rest
          return ((.text (String.ofList key), value) :: entries, after)
        | '}' :: after => return ([(.text (String.ofList key), value)], after)
        | _ => none
      | _ => none
    | _ => none

end

/-- The value that a whole text writes; `none` when it is not JSON. No character is looked at by more than two steps,
so twice the text's length bounds the reading. -/
def read? (s : String) : Option Value :=
  let cs := s.toList
  match decode (2 * cs.length + 2) cs with
  | some (v, rest) => if rest.all isSpace then some v else none
  | none => none

end MarkdownTree.Value.Json
