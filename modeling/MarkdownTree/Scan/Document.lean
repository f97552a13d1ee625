import MarkdownTree.Position.Locator
import MarkdownTree.Scan.Chunk
import MarkdownTree.Scan.Inline
import MarkdownTree.Scan.Options

/-!
# Documents

A document is read by cutting its lines into chunks, reading the inline content of the leaves and cutting the inner
lines of the containers in turn. The number of containers that may still be opened goes down by one on the way in, and
where it reaches zero no container is recognized, so the reading ends.
-/

namespace MarkdownTree.Scan

open Text

/-- The blocks that a row of lines reads as, the notes on them, and whether a blank line separates two of them. -/
structure Blocks where
  trees : List (Tree Span)
  notes : List Note
  loose : Bool
deriving DecidableEq, Repr

/-- How the inner lines of a container are read, told whether they are those of a list item. -/
abbrev Inner :=
  Bool → List Line → Blocks

/-- The text of a field, if it is there. -/
def optionText (cs : Option (List Char)) : Option String :=
  cs.map String.ofList

/-- A list item with its blocks; its flag says that a blank line separates two of them. -/
def itemTree (inner : Inner) (item : ItemChunk) : Tree Span × List Note × Bool :=
  let blocks := inner true item.lines
  (.node ⟨item.marker.start, item.stop⟩ (.listItem blocks.loose item.checked) blocks.trees, blocks.notes, blocks.loose)

/-- A blank line separates two items of a list. -/
def itemsApart : List ItemChunk → Bool
  | [] => false
  | [_] => false
  | item :: items => item.trailingBlank || itemsApart items

/-- The node of a chunk, and the notes on it. -/
def chunkTree (inner : Inner) : Chunk → Tree Span × List Note
  | .code span value lang details notes =>
    (.node span (.codeBlock (String.ofList value) (optionText lang) (optionText details)) [], notes)
  | .heading span depth lines notes =>
    let inline := readLines lines
    (.node span (.heading depth) inline.trees, notes ++ inline.notes)
  | .paragraph span lines notes =>
    let inline := readLines lines
    (.node span .paragraph inline.trees, notes ++ inline.notes)
  | .rule span => (.node span .thematicBreak [], [])
  | .quote span lines =>
    let blocks := inner false lines
    (.node span .blockQuote blocks.trees, blocks.notes)
  | .list marker items =>
    let trees := items.map (itemTree inner)
    let stop := (items.getLast?.map ItemChunk.stop).getD marker.stop
    let spread := itemsApart items || trees.any (·.2.2)
    let start := marker.number.map fun n => (n : Int)
    (.node ⟨marker.start, stop⟩ (.list marker.ordered start spread) (trees.map (·.1)), trees.flatMap (·.2.1))

/-- The blocks of a row of segments. -/
def assemble (inner : Inner) (segments : List Segment) : Blocks :=
  let blocks := segments.map fun s => chunkTree inner s.chunk
  ⟨blocks.map (·.1), blocks.flatMap (·.2), (segments.drop 1).any Segment.gap⟩

/-- The blocks of a row of lines in which so many containers may still be opened, one in the other. -/
def readBlocks (o : ScanOptions) : Nat → Inner
  | 0, inItem, lines =>
    assemble (fun _ _ => ⟨[], [], false⟩) (Setting.segments ⟨o.tabSize, false, inItem⟩ o.nestingLimit false lines)
  | room + 1, inItem, lines =>
    assemble (readBlocks o room) (Setting.segments ⟨o.tabSize, true, inItem⟩ o.nestingLimit false lines)

/-- The lines of a text up to the one that closes front matter, that line, and the lines after it. -/
def splitFrontMatter? : List Line → Option (List Line × Line × List Line)
  | [] => none
  | l :: ls =>
    if closesFrontMatter l.text then some ([], l, ls)
    else (splitFrontMatter? ls).map fun (inner, closing, rest) => (l :: inner, closing, rest)

/-- The front matter at the start of a document, and the lines after it. -/
def frontMatter? : List Line → Option (Tree Span × List Line)
  | [] => none
  | l :: ls =>
    if opensFrontMatter l.text then
      (splitFrontMatter? ls).map fun (inner, closing, rest) =>
        let value := String.ofList (join ['\n'] (inner.map Line.text))
        (.node ⟨l.offset, closing.stop⟩ (.frontMatter value) [], rest)
    else none

/-- A document with its places as source offsets. -/
structure Document where
  tree : Tree Span
  notes : List Note
deriving DecidableEq, Repr

/-- Reads a text. -/
def readDocument (o : ScanOptions) (text : List Char) : Document :=
  let lines := linesOf text
  let (front, lines) := match if o.frontMatter then frontMatter? lines else none with
    | some (node, rest) => ([node], rest)
    | none => ([], lines)
  let blocks := readBlocks o o.maxNesting false lines
  ⟨.node ⟨0, text.length⟩ .root (front ++ blocks.trees), blocks.notes⟩

mutual

/-- The tree with positions in place of offsets; `none` when some node ends before it starts. -/
def locate? (l : Locator) : Tree Span → Option (Tree Position)
  | .node span content children => do
    let position ← l.position? span.start span.stop
    let children ← locateList? l children
    return .node position content children

/-- Every tree of a list with positions in place of offsets. -/
def locateList? (l : Locator) : List (Tree Span) → Option (List (Tree Position))
  | [] => some []
  | t :: ts => do
    let t ← locate? l t
    let ts ← locateList? l ts
    return t :: ts

end

end MarkdownTree.Scan
