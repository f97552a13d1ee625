import MarkdownTree.Print.Leaf
import MarkdownTree.Print.Phrasing

/-!
# Printing

The text of a tree. Each kind of node has its way of being printed, which a printer may replace or lack. The delimiters
of emphasis are chosen node by node from the surrounding characters; when a paragraph or heading would not read back
as it was, all other choices for it are tried, and the first that reads back wins.

A printer works in a monad of choice, in which it can at least fail: trees may hold what cannot be printed. The pen is
passed on from node to node in the order in which they are printed.
-/

namespace MarkdownTree.Print

open Text

/-- What a printer may remark on. -/
inductive Remark where
  /-- A paragraph with more emphasis than a search can cover. -/
  | localChoice (emphasis : Nat)
  /-- A paragraph that reads back as something else whatever the delimiters. -/
  | notIntact (printed : String)
deriving DecidableEq, Repr

/-- A printer: its settings, the kinds that it prints in ways of its own, from the fields of their nodes, and what it
does with remarks. -/
structure Printer (m : Type → Type) where
  options : PrintOptions
  custom : Kind → Option (Scene → Surroundings → List Field → m (List Char))
  remark : Remark → m Unit

/-- Printing with a pen. -/
abbrev Printing (m : Type → Type) :=
  StateT Pen m

namespace Printer

/-- The printer that prints every kind in the standard way and keeps its remarks to itself. -/
def standard (o : PrintOptions) : Printer (Except Fault) :=
  ⟨o, fun _ => none, fun _ => .ok ()⟩

variable {m : Type → Type}

/-- Inline nodes are all printed in the standard way. -/
def hasStandardInline (p : Printer m) : Bool :=
  [Kind.text, .emphasis, .strong, .inlineCode, .link, .image, .lineBreak].all fun k => (p.custom k).isNone

/-- The mark of a list: not that of a list of the same type directly before it. -/
def listSymbol (o : PrintOptions) (parent : Option Frame) (last : Option Char) (ordered : Value) : Char :=
  let numbered := ordered.truthy
  let symbol := if numbered then o.numberMark.char else o.bullet.char
  let alternative := if numbered then (if symbol = '.' then ')' else '.') else (if symbol = '-' then '*' else '-')
  if parent.any (·.afterList ordered) && last == some symbol then alternative else symbol

/-- The mark of a rule: an underscore where another would be taken for an underline, for front matter, or for more of
a list marker. -/
def ruleMark (o : PrintOptions) (frame : Option Frame) : Char :=
  let mark := o.rule.char
  match frame with
  | none => mark
  | some f =>
    let inMarker := f.kind == .listItem && f.previous.isNone && f.symbol == [mark]
    let asUnderline := mark == '-' && f.belowParagraph
    let asFence := mark == '-' && f.kind == .root && f.previous.isNone
    if mark != '_' && (inMarker || asUnderline || asFence) then '_' else mark

/-- The mark of a list item outside of lists. -/
def looseMarker (o : PrintOptions) : List Char :=
  [o.bullet.char, ' ']

/-- The marker that a list item is printed with. -/
def markerFor (o : PrintOptions) (parent : Option Frame) : List Char :=
  match parent with
  | some f => if f.kind = .list then f.marker else looseMarker o
  | none => looseMarker o

/-- A heading is underlined if it may be and has to be or should be. -/
def isUnderlined (o : PrintOptions) (frame : Option Frame) (depth : Value) (children : List Draft) :
    Except Fault Bool := do
  let multiline ← breaksLineList children
  let some size := depth.size? | throw .mistyped
  return size.upTo (.ofInt 2) && (o.setext || multiline) && !frame.any Frame.belowParagraph

/-- Fails if something other than a list stands in the place of a node's children and cannot be printed. Inline siblings
are printed with a look at the one that follows. -/
def checkBelow (kind : Kind) (fields : List Field) : Except Fault Unit :=
  match Draft.stray? kind fields, kind with
  | some v, .paragraph | some v, .emphasis | some v, .strong | some v, .link => Draft.checkSiblings v
  | some v, _ => Draft.checkRow v
  | none, _ => .ok ()

/-! ### With a pen -/

/-- Changes the pen. -/
def change [Monad m] (f : Pen → Pen) : Printing m Unit :=
  modify f

/-- What can only fail, in printing. -/
def lift [MonadLiftT (Except Fault) m] [Monad m] {α : Type} (x : Except Fault α) : Printing m α :=
  StateT.lift (liftM x)

/-- Prints inside one more container. -/
def enclosed [Monad m] {α : Type} (x : Printing m α) : Printing m α := do
  change fun pen => { pen with symbols := none :: pen.symbols }
  let a ← x
  change fun pen => { pen with symbols := pen.symbols.tail }
  return a

/-- The first of some attempts whose text reads back intact; none of them decides on delimiters for what follows. -/
def firstIntact [Monad m] (expected : List Draft) (attempt : Printing m (List Char)) :
    List (Nat → Option Delimiter) → Printing m (Option (List Char))
  | [] => return none
  | decided :: rest => do
    change fun pen => { pen with decided }
    let text ← attempt
    change fun pen => { pen with decided := fun _ => none }
    if isIntact (← get).atx expected text then return some text
    firstIntact expected attempt rest

/-- The text of inline content in a scene, given how it is printed once its delimiters are decided. -/
def settle [Monad m] [MonadLiftT (Except Fault) m] (p : Printer m) (s : Scene) (children : List Draft)
    (attempt : Printing m (List Char)) : Printing m (List Char) := do
  let text ← attempt
  let ids ← lift (emphasisIdsList children)
  let atx := (← get).atx
  let expected := phrase atx children
  if ids.isEmpty || !p.hasStandardInline || isIntact atx expected text then return text
  if searchLimit < ids.length then
    StateT.lift (p.remark (.localChoice ids.length))
    return text
  match ← firstIntact expected attempt ((delimiterRows ids.length).map (decide s.rank ids)) with
  | some other => return other
  | none =>
    StateT.lift (p.remark (.notIntact (String.ofList text)))
    return text

/-- The delimiter of an emphasis node: the one that was decided on, or else one chosen from what surrounds the node. -/
def delimiterFor [Monad m] [MonadLiftT (Except Fault) m] (s : Scene) (preferred : Delimiter) :
    Printing m Delimiter := do
  let pen ← get
  match pen.decided s.rank with
  | some d => return d
  | none => lift (chooseDelimiter preferred pen.around)

mutual

/-- The text of a node in a scene. -/
def render [Monad m] [MonadLiftT (Except Fault) m] (p : Printer m) (s : Scene) : Draft → Printing m (List Char)
  | .other _ => lift (.error .field)
  | .node kind fields _ children _ =>
    match p.custom kind with
    | some custom => do StateT.lift (custom s (← get).around fields)
    | none => do
      let field := fieldOf fields
      lift (checkBelow kind fields)
      match kind with
      | .root => do
        let f : Frame := { kind }
        return join f.separator (← enclosed (renderBlocks p s f children))
      | .frontMatter => return frontMatterText (field "value")
      | .heading => do
        let content ←
          if ← lift (isUnderlined p.options s.current (field "depth") children) then
            p.settle s children (renderInlines p s none none .nothing true children)
          else pure []
        if (trim content).isEmpty then
          change fun pen => { pen with atx := true }
          let content ← p.settle s children (renderInlines p s none none .nothing true children)
          change fun pen => { pen with atx := false }
          return atxText p.options.closeAtx (← lift (repeatMark '#' (field "depth"))) content
        else return setextText (field "depth") content
      | .paragraph => p.settle s children (renderInlines p s none none .nothing true children)
      | .codeBlock => lift (codeBlockText p.options.fence (field "lang") (field "meta") (field "value"))
      | .blockQuote => do
        let f : Frame := { kind, lead := ['>', ' '] }
        return quoteText (join f.separator (← enclosed (renderBlocks p s f children)))
      | .list => do
        let ordered := field "ordered"
        let symbol := listSymbol p.options s.current (← get).symbol? ordered
        change (·.withSymbol symbol)
        let f : Frame := { kind, tight := !(field "spread").truthy, symbol := [symbol] }
        let marker := itemMarker ordered.truthy symbol (field "start")
        return join f.separator (← enclosed (renderItems p s f marker 0 children))
      | .listItem => do
        let marker := markerFor p.options s.current
        let lead := List.replicate marker.length ' '
        let f : Frame := { kind, tight := !(field "spread").truthy, lead, symbol := trim marker }
        let content := join f.separator (← enclosed (renderBlocks p s f children))
        return itemText marker (taskBox (field "checked")) content
      | .thematicBreak => return List.replicate 3 (ruleMark p.options s.current)
      | .text => do
        let pen ← get
        lift (textText pen.around.atLineStart pen.atx (pen.around.next == some .link) (field "value"))
      | .emphasis => do
        let d ← delimiterFor s p.options.emphasis
        let inner ← renderInlines p (s.past 1) (some d) (some d.char) (.char d.char) true children
        return d.char :: inner ++ [d.char]
      | .strong => do
        let d ← delimiterFor s p.options.strong
        let inner ← renderInlines p (s.past 1) (some d) (some d.char) (.char d.char) true children
        return d.char :: d.char :: inner ++ [d.char, d.char]
      | .inlineCode => lift (inlineCodeText (field "value"))
      | .link => do
        let inner ← renderInlines p s none (some '[') (.char ']') true children
        return '[' :: inner ++ ']' :: (← lift (linkTail (field "destination") (field "title")))
      | .image => lift (imageText (field "alt") (field "destination") (field "title"))
      | .lineBreak => return if (← get).atx then [' '] else ['\\', '\n']

/-- The texts of the children of a container, those without text left out. -/
def renderBlocks [Monad m] [MonadLiftT (Except Fault) m] (p : Printer m) (s : Scene) (f : Frame) :
    List Draft → Printing m (List (List Char))
  | [] => return []
  | t :: ts => do
    let text ← render p (s.inside f) t
    let texts ← renderBlocks p (s.past (emphasisCount t)) { f with previous := some t } ts
    return if text.isEmpty then texts else text :: texts

/-- The texts of the items of a list, from the one of the given index on. -/
def renderItems [Monad m] [MonadLiftT (Except Fault) m] (p : Printer m) (s : Scene) (f : Frame)
    (marker : Nat → Except Fault (List Char)) (index : Nat) : List Draft → Printing m (List (List Char))
  | [] => return []
  | t :: ts => do
    let f := { f with marker := ← lift (marker index) }
    let text ← render p (s.inside f) t
    let texts ← renderItems p (s.past (emphasisCount t)) { f with previous := some t } marker (index + 1) ts
    return text :: texts

/-- The text of inline siblings: `outer` is the delimiter around all of them, `before` and `after` are the characters
around these, `touching` is the delimiter that the sibling before them begins with, and `first` says that there is
none. -/
def renderInlines [Monad m] [MonadLiftT (Except Fault) m] (p : Printer m) (s : Scene) (outer : Option Delimiter)
    (before : Option Char) (after : Opening) (first : Bool) (nodes : List Draft) (touching : Option Char := none) :
    Printing m (List Char) :=
  match nodes with
  | [] => return []
  | t :: ts => do
    let edge := if first || ts.isEmpty then outer.map Delimiter.char else none
    let follower ← lift (follow after ts)
    change fun pen => { pen with
      around := { before, after := follower.1, adjacent := edge.toList ++ touching.toList, next := follower.2 } }
    let text ← render p s t
    let before := text.getLast?.or before
    let touching := if t.kind?.any isEmphasis then text.head? else none
    let rest ← renderInlines p (s.past (emphasisCount t)) outer before after false ts touching
    return text ++ rest

end

/-- The text of a document, which ends with a line feed. -/
def print [Monad m] [MonadLiftT (Except Fault) m] (p : Printer m) (t : Draft) : m (List Char) := do
  let text ← (p.render {} t).run' {}
  return if text.isEmpty then [] else text ++ ['\n']

end Printer

/-- The text of a tree, printed in the standard way. -/
def printTree (o : PrintOptions) (t : Tree α) : Except Fault (List Char) :=
  (Printer.standard o).print (.ofTree (t.map fun _ => none))

end MarkdownTree.Print
