import MarkdownTree.Scan.Anomaly
import MarkdownTree.Scan.Sign

/-!
# Chunks

The first reading of a row of lines: it is cut into chunks, one per block, without looking inside containers. A
container's chunk holds the inner lines, stripped of markers and indentation, and they are cut in their turn later. So
the cutting never depends on how deep the lines lie, only on whether containers are still allowed there.
-/

namespace MarkdownTree.Scan

open Text

/-- How a row of lines is cut: the width of a tab stop, whether containers are recognized, and whether the lines are
those of a list item, whose paragraphs any list marker interrupts. -/
structure Setting where
  tab : Rat
  containers : Bool
  inItem : Bool
deriving DecidableEq, Repr

/-- An item of a list: its marker, its task state, its own lines and whether blank lines were cut off their end. -/
structure ItemChunk where
  marker : Marker
  checked : Option Bool
  lines : List Line
  trailingBlank : Bool
deriving DecidableEq, Repr

/-- The offset at which the item ends: the end of its last text, or of its marker when it says nothing. -/
def ItemChunk.stop (item : ItemChunk) : Nat :=
  match item.lines.getLast? with
  | some last => if last.isBlank then item.marker.stop else max item.marker.stop last.contentStop
  | none => item.marker.stop

/-- A block with its place, its inner lines not yet read. -/
inductive Chunk where
  | code (span : Span) (value : List Char) (lang details : Option (List Char)) (notes : List Note)
  | heading (span : Span) (depth : Nat) (lines : List Line) (notes : List Note)
  | paragraph (span : Span) (lines : List Line) (notes : List Note)
  | rule (span : Span)
  | quote (span : Span) (lines : List Line)
  | list (marker : Marker) (items : List ItemChunk)
deriving DecidableEq, Repr

/-- A chunk in its row, and whether a blank line stands before it. -/
structure Segment where
  gap : Bool
  chunk : Chunk
deriving DecidableEq, Repr

namespace Setting

variable (s : Setting)

/-- A line that cannot go on a paragraph, apart from blank lines and underlines. -/
def interrupts (l : Line) : Bool :=
  if 4 ≤ l.indent s.tab then false
  else
    let body := l.trimStart.text
    if (headingDepth? body).isSome || isRule body then true
    else if (Fence.opening? body).isSome then true
    else if !s.containers then false
    else if body.head? == some '>' then true
    else
      match Marker.read? s.tab l with
      | none => false
      | some m => s.inItem || (!m.content.isBlank && (!m.ordered || m.number == some 1))

/-- The depth of the heading that a line closes as its underline. -/
def underline? (l : Line) : Option Nat :=
  if 4 ≤ l.indent s.tab then none else underlineDepth? l.trimStart.text

/-- A line that goes on a paragraph. -/
def goesOn (l : Line) : Bool :=
  !l.isBlank && (s.underline? l).isNone && !s.interrupts l

/-! ### Leaf blocks -/

/-- The lines of an indented code block after its first: blank lines count only with a line of code after them. -/
def indentedLines (ls : List Line) : List Line :=
  dropEndWhile Line.isBlank (ls.takeWhile fun l => l.isBlank || 4 ≤ l.indent s.tab)

/-- An indented code block, and how many lines after the first it takes. -/
def indentedCode (l : Line) (ls : List Line) : Chunk × Nat :=
  let more := s.indentedLines ls
  let value := join ['\n'] ((l :: more).map fun x => (x.dropColumns s.tab 4).text)
  let last := more.getLast?.getD l
  (.code ⟨(l.dropColumns s.tab 4).offset, last.contentStop⟩ value none none [], more.length)

/-- A text, unless it is empty. -/
def nonEmpty (cs : List Char) : Option (List Char) :=
  if cs.isEmpty then none else some cs

/-- A fenced code block, and how many lines after the first it takes. -/
def fencedCode (fence : Fence) (l : Line) (ls : List Line) : Chunk × Nat :=
  let body := l.trimStart
  let inner := ls.takeWhile fun x => !(x.indent s.tab < 4 && fence.closedBy x.trimStart.text)
  let info := trim fence.info
  let lang := info.takeWhile (· != ' ')
  let details := trim (info.drop (lang.length + 1))
  let value := join ['\n'] (inner.map fun x => (x.dropColumns s.tab (l.indent s.tab)).text)
  let chunk := fun stop notes => Chunk.code ⟨body.offset, stop⟩ value (nonEmpty lang) (nonEmpty details) notes
  match ls.drop inner.length with
  | closing :: _ => (chunk closing.contentStop [], inner.length + 1)
  | [] =>
    let last := (dropEndWhile Line.isBlank inner).getLast?.getD l
    let note := ⟨.unclosedFence fence.run, ⟨body.offset, body.offset + fence.size⟩⟩
    (chunk last.contentStop [note], inner.length)

/-- The heading that a heading mark of the given depth opens. -/
def markedHeading (depth : Nat) (body : Line) : Chunk :=
  let content := (body.drop depth).trimStart
  .heading ⟨body.offset, body.contentStop⟩ depth [{ content with text := headingText content.text }] []

/-- The lines of a paragraph as its inline content: without indentation, and without blanks at the very end. -/
def paragraphLines : List Line → List Line
  | [] => []
  | [l] => [l.trimStart.trimEnd]
  | l :: ls => l.trimStart :: paragraphLines ls

/-- A paragraph, or the heading that an underline makes of it, and how many lines after the first it takes. -/
def paragraph (notes : List Note) (l : Line) (ls : List Line) : Chunk × Nat :=
  let more := ls.takeWhile s.goesOn
  let lines := paragraphLines (l :: more)
  let start := l.trimStart.offset
  let stop := (lines.getLast?.getD l).stop
  match (ls.drop more.length).head? with
  | some next =>
    match s.underline? next with
    | some depth => (.heading ⟨start, next.contentStop⟩ depth lines notes, more.length + 1)
    | none => (.paragraph ⟨start, stop⟩ lines notes, more.length)
  | none => (.paragraph ⟨start, stop⟩ lines notes, more.length)

/-! ### Containers -/

/-- What a quoted line says without its quote mark and the space or tab after it. -/
def quoted? (l : Line) : Option Line :=
  if l.isBlank || 4 ≤ l.indent s.tab then none
  else
    let body := l.trimStart
    match body.text with
    | '>' :: c :: _ => some (body.drop (if isGap c then 2 else 1))
    | ['>'] => some (body.drop 1)
    | _ => none

/-- The lines of a quote: those that have a quote mark, one after the other. -/
def quotedLines : List Line → List Line
  | [] => []
  | l :: ls =>
    match s.quoted? l with
    | some inner => inner :: quotedLines ls
    | none => []

/-- A quote, and how many lines after the first it takes. -/
def quote (l : Line) (ls : List Line) : Chunk × Nat :=
  let inner := s.quotedLines (l :: ls)
  let last := ((l :: ls).take inner.length).getLast?.getD l
  (.quote ⟨l.trimStart.offset, last.contentStop⟩ inner, inner.length - 1)

/-- The fence that is open after a line of an item, given the one that was open before it. -/
def fenceAfter (text : List Char) (current : Option Fence) : Option Fence :=
  let body := Text.trimStart text
  match current with
  | none => Fence.opening? body
  | some fence =>
    match Fence.read? body with
    | some f => if f.mark = fence.mark ∧ fence.size ≤ f.size ∧ (trim f.info).isEmpty then none else some fence
    | none => some fence

/-- A line with too little indentation that still goes on the paragraph at the end of an item. -/
def isLazy (previous : Line) (fence : Option Fence) (l : Line) : Bool :=
  if fence.isSome || previous.isBlank then false
  else
    let before := previous.trimStart.text
    if (headingDepth? before).isSome || isRule before || (underlineDepth? before).isSome then false
    else if interrupts { s with containers := true, inItem := true } l then false
    else (underlineDepth? l.trimStart.text).isNone

/-- The lines after an item's first that belong to it, stripped of its indentation. -/
def itemLines (indent : Rat) (previous : Line) (fence : Option Fence) : List Line → List Line
  | [] => []
  | l :: ls =>
    if l.isBlank then
      let inner := l.dropColumns s.tab indent
      inner :: itemLines indent inner fence ls
    else if indent ≤ l.indent s.tab then
      let inner := l.dropColumns s.tab indent
      inner :: itemLines indent inner (fenceAfter inner.text fence) ls
    else if s.isLazy previous fence l then
      let inner := l.trimStart
      inner :: itemLines indent inner (fenceAfter inner.text fence) ls
    else []

/-- The item that a marker opens, and how many of the following lines it takes, blank lines at its end included. -/
def item (m : Marker) (ls : List Line) : ItemChunk × Nat :=
  let box := taskBox? m.content.text
  let content := match box with
    | some (_, size) => m.content.drop size
    | none => m.content
  let more := s.itemLines m.contentIndent content (fenceAfter content.text none) ls
  let kept := dropEndWhile Line.isBlank more
  (⟨m, box.map (·.1), content :: kept, kept.length < more.length⟩, more.length)

/-- The items of a list from the one that a marker opens, and how many of the following lines they take. -/
def items (m : Marker) (ls : List Line) : List ItemChunk × Nat :=
  let (first, taken) := s.item m ls
  match h : ls.drop taken with
  | [] => ([first], taken)
  | l :: rest =>
    match Marker.read? s.tab l with
    | some next =>
      if next.continues m then
        have : rest.length < ls.length := by
          have := congrArg List.length h
          simp at this
          omega
        let (others, more) := items next rest
        (first :: others, taken + 1 + more)
      else ([first], taken)
    | none => ([first], taken)
termination_by ls.length

/-! ### Dispatch -/

/-- The notes on a line that opens a paragraph where something else may have been meant. -/
def paragraphNotes (limit : Value) (l body : Line) : List Note :=
  let span := ⟨body.offset, body.stop⟩
  let deep := !s.containers && (body.text.head? == some '>' || (Marker.read? s.tab l).isSome)
  (if deep then [⟨.nestingLimit limit, span⟩] else []) ++
    (if isTightHeading body.text then [⟨.headingNoSpace, span⟩] else [])

/-- The chunk that a line opens, and how many lines after it the chunk takes. -/
def chunk (limit : Value) (l : Line) (ls : List Line) : Chunk × Nat :=
  let body := l.trimStart
  if 4 ≤ l.indent s.tab then s.indentedCode l ls
  else
    match Fence.opening? body.text with
    | some fence => s.fencedCode fence l ls
    | none =>
      match headingDepth? body.text with
      | some depth => (markedHeading depth body, 0)
      | none =>
        if isRule body.text then (.rule ⟨body.offset, body.contentStop⟩, 0)
        else if s.containers && body.text.head? == some '>' then s.quote l ls
        else
          match if s.containers then Marker.read? s.tab l else none with
          | some m =>
            let (items, taken) := s.items m ls
            (.list m items, taken)
          | none => s.paragraph (s.paragraphNotes limit l body) l ls

/-- The chunks of a row of lines; `gap` says whether a blank line came just before. -/
def segments (limit : Value) (gap : Bool) : List Line → List Segment
  | [] => []
  | l :: ls =>
    if l.isBlank then segments limit true ls
    else
      let (chunk, taken) := s.chunk limit l ls
      ⟨gap, chunk⟩ :: segments limit false (ls.drop taken)
termination_by ls => ls.length

end Setting

end MarkdownTree.Scan
