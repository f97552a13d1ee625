import MarkdownTree.Draft
import MarkdownTree.Print.Options
import MarkdownTree.Text.Blank
import MarkdownTree.Text.Punctuation

/-!
# Scenes

What the text of a node depends on besides the node itself: the containers it stands in, and what was printed before it,
which a pen carries from node to node.
-/

namespace MarkdownTree.Print

open Text

/-- An open container while its children are printed. -/
structure Frame where
  kind : Kind
  /-- Nothing but a line feed separates the children. -/
  tight : Bool := false
  /-- What the container puts before the lines of its children. -/
  lead : List Char := []
  /-- The child printed last. -/
  previous : Option Draft := none
  /-- The mark of the list or list item. -/
  symbol : List Char := []
  /-- The marker of the item that comes next in a list. -/
  marker : List Char := []
deriving Repr, Inhabited

namespace Frame

/-- What separates the children. -/
def separator (f : Frame) : List Char :=
  if f.tight then ['\n'] else ['\n', '\n']

/-- The next child stands directly below a paragraph. -/
def belowParagraph (f : Frame) : Bool :=
  f.tight && f.previous.bind Draft.kind? == some .paragraph

/-- The child printed last is a list, and says the same as another about its order. -/
def afterList (f : Frame) (ordered : Value) : Bool :=
  match f.previous with
  | some (.node .list fields ..) => (fieldOf fields "ordered").same ordered
  | _ => false

end Frame

/-- The containers that are open, the innermost first, and the rank of the next emphasis node in document order. -/
structure Scene where
  frames : List Frame := []
  rank : Nat := 0

namespace Scene

/-- The innermost container. -/
def current (s : Scene) : Option Frame :=
  s.frames.head?

/-- The scene inside one more container. -/
def inside (s : Scene) (f : Frame) : Scene :=
  { s with frames := f :: s.frames }

/-- The scene after so many more emphasis nodes. -/
def past (s : Scene) (count : Nat) : Scene :=
  { s with rank := s.rank + count }

/-- What the containers put before a line. -/
def lead (s : Scene) : List Char :=
  s.frames.reverse.flatMap Frame.lead

/-- How many of the containers are of a kind. -/
def depth (s : Scene) (k : Kind) : Nat :=
  s.frames.countP (·.kind == k)

end Scene

/-- What a neighbour begins with, as far as it can be told before it is printed. -/
inductive Opening where
  | nothing
  | char (c : Char)
  /-- The first item of a list that stands where a text should, if it has one. -/
  | items (vs : List Value)
deriving DecidableEq, Repr, Inhabited

/-- What surrounds an inline node: the character printed before it, the first one expected after it, the emphasis
delimiters that touch it, and the kind of its following sibling. -/
structure Surroundings where
  before : Option Char := none
  after : Opening := .nothing
  adjacent : List Char := []
  next : Option Kind := none
deriving DecidableEq, Repr, Inhabited

/-- The node starts a line. -/
def Surroundings.atLineStart (s : Surroundings) : Bool :=
  s.before.all (· == '\n')

/-- What a pen carries from node to node. The surroundings are those of the inline node that was printed last, so a node
that is not among inline siblings finds them as they were left. -/
structure Pen where
  around : Surroundings := {}
  /-- A marked heading is being printed. -/
  atx : Bool := false
  /-- The delimiters that have been decided on, by the ranks of emphasis nodes. -/
  decided : Nat → Option Delimiter := fun _ => none
  /-- For each open container, the mark of the list that was printed last while it was the innermost. -/
  symbols : List (Option Char) := []

instance : Inhabited Pen := ⟨{}⟩

/-- The mark of the list printed last in the innermost container. -/
def Pen.symbol? (p : Pen) : Option Char :=
  p.symbols.head?.join

/-- The pen after a list with a mark. -/
def Pen.withSymbol (p : Pen) (symbol : Char) : Pen :=
  match p.symbols with
  | _ :: rest => { p with symbols := some symbol :: rest }
  | [] => p

/-- Letters, digits and whatever else is neither blank nor punctuation. -/
def isWordChar (c : Char) : Bool :=
  !isBlank c && !isPunctuation c

/-- A neighbour begins with a word. Nothing can be told of an item of a list. -/
def Opening.isWord : Opening → Except Fault Bool
  | nothing | items [] => .ok false
  | char c => .ok (isWordChar c)
  | items _ => .error .field

/-- The delimiter of an emphasis node: the preferred one unless it would merge with a neighbour; an underscore does not
work at a word. -/
def chooseDelimiter (preferred : Delimiter) (around : Surroundings) : Except Fault Delimiter := do
  let insideWord ← if around.before.any isWordChar then pure true else around.after.isWord
  let candidates := [preferred, preferred.other].filter fun d => d == .star || !insideWord
  match candidates.find? fun d => !around.adjacent.contains d.char with
  | some d => return d
  | none => return candidates.head?.getD .star

/-- Kinds that make emphasis. -/
def isEmphasis (k : Kind) : Bool :=
  k == .emphasis || k == .strong

mutual

/-- The number of emphasis nodes in a tree. -/
def emphasisCount : Draft → Nat
  | .node kind _ _ children _ => (if isEmphasis kind then 1 else 0) + emphasisCountList children
  | .other _ => 0

/-- The number of emphasis nodes in a list of trees. -/
def emphasisCountList : List Draft → Nat
  | [] => 0
  | t :: ts => emphasisCount t + emphasisCountList ts

end

mutual

/-- The identities of the emphasis nodes of a tree, in document order. -/
def emphasisIds : Draft → Except Fault (List (Option Nat))
  | .node kind fields _ children id => do
    Draft.checkChildren kind fields
    let below ← emphasisIdsList children
    return if isEmphasis kind then id :: below else below
  | .other _ => .error .field

/-- The identities of the emphasis nodes of a list of trees, in document order. -/
def emphasisIdsList : List Draft → Except Fault (List (Option Nat))
  | [] => .ok []
  | t :: ts => do
    let ids ← emphasisIds t
    let more ← emphasisIdsList ts
    return ids ++ more

end

/-- The delimiters of emphasis nodes by their ranks, from a row for the nodes of some identities that come one after the
other. A node that stands in several places has the delimiter of the last of them. -/
def decide (rank : Nat) (ids : List (Option Nat)) (row : List Delimiter) (k : Nat) : Option Delimiter :=
  if k < rank then none
  else
    match ids[k - rank]? with
    | some (some id) => (ids.zip row).reverse.lookup (some id)
    | _ => row[k - rank]?

/-- What a node begins with: a text node begins like its text, and of others nothing can be told. -/
def openingOf : Draft → Except Fault Opening
  | .node .text fields .. =>
    match fieldOf fields "value" with
    | .text s => .ok (match s.toList with
      | c :: _ => .char c
      | [] => .nothing)
    | .list vs => .ok (.items (vs.take 1))
    | _ => .error .mistyped
  | _ => .ok .nothing

/-- What follows a node among inline siblings: what it begins with, and its kind, if there is one. -/
def follow (after : Opening) : List Draft → Except Fault (Opening × Option Kind)
  | [] => .ok (after, none)
  | .other _ :: _ => .error .field
  | t :: _ => do return (← openingOf t, t.kind?)

/-- Whether a line feed is one of the items or keys of a value, or in its text. -/
def holdsLineFeed : Value → Except Fault Bool
  | .text s => .ok (s.toList.contains '\n')
  | .list vs => .ok (vs.any (·.same (.text "\n")))
  | .map es => .ok (es.any fun e => e.1.same (.text "\n"))
  | _ => .error .mistyped

mutual

/-- A tree breaks a line: it has a break in it, or a text of several lines. -/
def breaksLine : Draft → Except Fault Bool
  | .node kind fields _ children _ => do
    let here ←
      match kind with
      | .lineBreak => pure true
      | .text => holdsLineFeed (fieldOf fields "value")
      | _ => pure false
    if here then return true
    Draft.checkChildren kind fields
    breaksLineList children
  | .other _ => .error .field

/-- One of a list of trees breaks a line. -/
def breaksLineList : List Draft → Except Fault Bool
  | [] => .ok false
  | t :: ts => do
    if ← breaksLine t then return true
    breaksLineList ts

end

end MarkdownTree.Print
