import MarkdownTree.Draft
import MarkdownTree.Print.Escape
import MarkdownTree.Print.Options

/-!
# Leaves

The texts of nodes whose children do not matter, and of the parts of other nodes that their fields make. Fields may hold
values of any type; what cannot be written fails.
-/

namespace MarkdownTree.Print

/-- The characters of a text; anything else fails in the given way. -/
def textOr (fault : Fault) : Value → Except Fault (List Char)
  | .text s => .ok s.toList
  | _ => .error fault

/-- The text of front matter between its fences. -/
def frontMatterText (value : Value) : List Char :=
  let body := if value.truthy then value.plainText.toList ++ ['\n'] else []
  ['-', '-', '-', '\n'] ++ body ++ ['-', '-', '-']

/-- What follows an opening code fence: a language, and what else there is to say. -/
def infoValue (lang details : Value) : Value :=
  let lang := if lang.truthy then lang else .text ""
  if !details.truthy then lang
  else if lang.truthy then .text (lang.plainText ++ " " ++ details.plainText)
  else details

/-- Whether a backtick is one of the items or keys of a value, or in its text. -/
def holdsBacktick : Value → Except Fault Bool
  | .text s => .ok (s.toList.contains '\x60')
  | .list vs => .ok (vs.any (·.same (.text "\x60")))
  | .map es => .ok (es.any fun e => e.1.same (.text "\x60"))
  | _ => .error .mistyped

/-- A code block between its fences, which are of tildes when there are backticks after the first. -/
def codeBlockText (fence : FenceMark) (lang details value : Value) : Except Fault (List Char) := do
  let info := infoValue lang details
  let backticks ← if fence = .backtick then holdsBacktick info else pure false
  let mark := if backticks then '~' else fence.char
  return fencedText mark info.plainText.toList (← textOr .mistyped value)

/-- A code span. -/
def inlineCodeText (value : Value) : Except Fault (List Char) := do
  return codeSpanText (← textOr .field value)

/-- What follows the closing bracket of a link or an image. -/
def linkTail (destination title : Value) : Except Fault (List Char) := do
  let destination ← textOr .mistyped destination
  let title ← if title = .null then pure none else some <$> textOr .mistyped title
  return tailText destination title

/-- An image. -/
def imageText (alt destination title : Value) : Except Fault (List Char) := do
  let alt ← textOr .field alt
  return '!' :: '[' :: escape false false alt ++ ']' :: (← linkTail destination title)

/-- The text of a text node, with an exclamation mark at its end escaped before a link. -/
def textText (atStart atx beforeLink : Bool) (value : Value) : Except Fault (List Char) := do
  let value ← textOr .field value
  let text := escape atStart atx (if atx then flatten value else value)
  return if beforeLink && text.getLast? == some '!' then text.dropLast ++ ['\\', '!'] else text

/-- The box of a list item with a task state. -/
def taskBox (checked : Value) : List Char :=
  if checked = .null then [] else ['[', if checked.truthy then 'x' else ' ', ']', ' ']

/-- A mark of a heading, repeated as often as the heading is deep. -/
def repeatMark (mark : Char) (depth : Value) : Except Fault (List Char) :=
  match depth.integer? with
  | some n => .ok (List.replicate n.toNat mark)
  | none => .error .mistyped

/-- A heading with a mark before it. -/
def atxText (closed : Bool) (mark content : List Char) : List Char :=
  if content.isEmpty then mark else mark ++ ' ' :: content ++ (if closed then ' ' :: mark else [])

/-- A heading with a line under it. -/
def setextText (depth : Value) (content : List Char) : List Char :=
  content ++ '\n' :: List.replicate 3 (if depth.same (.int 1) then '=' else '-')

/-- The marker of a list item: the mark of the list, after the number of the item if it is numbered. -/
def itemMarker (ordered : Bool) (symbol : Char) (start : Value) (index : Nat) : Except Fault (List Char) :=
  if ordered then
    match (if start = .null then Value.int 1 else start).sum? (.int index) with
    | some n => .ok (n.plainText.toList ++ [symbol, ' '])
    | none => .error .mistyped
  else .ok [symbol, ' ']

end MarkdownTree.Print
