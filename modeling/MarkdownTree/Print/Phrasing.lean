import MarkdownTree.Event
import MarkdownTree.Print.Escape
import MarkdownTree.Print.Scene
import MarkdownTree.Scan.Inline

/-!
# Phrasing

What has to survive when inline content is printed and read again: its nodes, with neighbouring texts merged. Inside a
marked heading line feeds and breaks count as spaces, which is how they are printed there.

What printed inline content reads as can be built from its events, as a document is (`checkedRoot`). Places do not survive,
and what is read makes well-formed events, so a printer takes the shorter way and looks at what is read (`rescan`).
-/

namespace MarkdownTree.Print

open Text

/-- Puts a text before phrasing; it merges with a text that stands there. -/
def consText (value : List Char) (rest : List Draft) : List Draft :=
  if value.isEmpty then rest
  else
    match rest with
    | .node .text [(_, .text more)] _ [] _ :: rest => Draft.ofText (String.ofList (value ++ more.toList)) :: rest
    | rest => Draft.ofText (String.ofList value) :: rest

mutual

/-- Puts what must survive of a node before phrasing. -/
def phraseNode (atx : Bool) (rest : List Draft) : Draft → List Draft
  | .node kind fields place children id =>
    match kind with
    | .text =>
      let value := (fieldOf fields "value").plainText.toList
      consText (if atx then flatten value else value) rest
    | .lineBreak => if atx then consText [' '] rest else .node kind fields place children id :: rest
    | .emphasis | .strong | .link =>
      .node kind (fields.filter (·.1 != "children")) none (phrase atx children) none :: rest
    | _ => .node kind fields place children id :: rest
  | .other v => .other v :: rest

/-- What must survive of a row of nodes. -/
def phrase (atx : Bool) : List Draft → List Draft
  | [] => []
  | t :: ts => phraseNode atx (phrase atx ts) t

end

/-- Printed inline content as a paragraph or heading holds it: without indentation, and without blanks at its end. -/
def contentLines (atx : Bool) (printed : List Char) : List (List Char) :=
  if atx then [trim printed]
  else
    let lines := (fields '\n' printed).map trimStart
    lines.dropLast ++ (lines.getLast?.map trimEnd).toList

/-- Texts as lines one after another, each with its place in the text that they make when line feeds join them. -/
def consecutive (offset : Nat) : List (List Char) → List Scan.Line
  | [] => []
  | text :: texts => ⟨text, offset⟩ :: consecutive (offset + text.length + 1) texts

/-- What is built of printed inline content by itself: a root of which its lines, joined on their own, are all the text. -/
def checkedRoot (atx : Bool) (printed : List Char) : Except Fault Draft :=
  let texts := contentLines atx printed
  let content := join ['\n'] texts
  let trees := (Scan.readLines (consecutive 0 texts)).trees
  Event.build (.ofText content) (Event.ofTree (.node ⟨0, content.length⟩ .root trees))

/-- What printed inline content reads as. -/
def rescan (atx : Bool) (printed : List Char) : List Draft :=
  let trees := (Scan.readInline (join ['\n'] (contentLines atx printed))).trees
  phrase atx (Draft.ofTrees (trees.map (·.map fun _ => none)))

/-- Printed inline content reads back as what must survive. -/
def isIntact (atx : Bool) (expected : List Draft) (printed : List Char) : Bool :=
  Draft.sameList (rescan atx printed) expected

/-- All rows of so many delimiters, those with a star first in front. -/
def delimiterRows : Nat → List (List Delimiter)
  | 0 => [[]]
  | n + 1 => [.star, .underscore].flatMap fun d => (delimiterRows n).map (d :: ·)

/-- The number of emphasis nodes up to which all rows of delimiters are tried. -/
def searchLimit : Nat :=
  8

end MarkdownTree.Print
