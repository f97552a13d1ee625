import MarkdownTree.Yaml.Node
import MarkdownTree.Yaml.Token

/-!
# Documents in YAML

The value that a text of one document stands for. Nodes are composed by recursive descent over the tokens; an anchor
names the node after it, and an alias repeats that node. Words are read when the whole document is composed.
-/

namespace MarkdownTree.Yaml

/-- The tokens that are left, the defect that comes after them, and the nodes that have names. -/
structure Reading where
  tokens : List Token
  defect : Option Defect := none
  anchors : List (List Char × Node) := []

/-- A reader of nodes. -/
abbrev Read :=
  StateT Reading (Except Defect)

namespace Read

/-- The text is not written as the grammar asks. -/
def malformed {α : Type} : Read α :=
  throw .malformed

/-- The token in front, if any. -/
def peek : Read (Option Token) := do
  let r ← get
  match r.tokens, r.defect with
  | [], some defect => throw defect
  | ts, _ => return ts.head?

/-- Passes over the token in front. -/
def drop : Read Unit :=
  modify fun r => { r with tokens := r.tokens.drop 1 }

/-- Passes over the token in front if it is the given one. -/
def accept (t : Token) : Read Bool := do
  if (← peek) = some t then
    drop
    return true
  else return false

/-- Passes over the given token, which has to be in front. -/
def expect (t : Token) : Read Unit := do
  if !(← accept t) then malformed

/-- One of the given tokens is in front. -/
def atOneOf (ts : List Token) : Read Bool :=
  return (← peek).any ts.contains

/-- Nothing is left. -/
def atEnd : Read Bool :=
  return (← peek).isNone

end Read

open Read

/-- The anchor in front, if any. -/
def anchor? : Read (Option (List Char)) := do
  match ← peek with
  | some (.anchor name) =>
    drop
    return some name
  | _ => return none

/-- Names a node; a name is given once. -/
def bind (name : Option (List Char)) (n : Node) : Read Node := do
  match name with
  | none => return n
  | some name =>
    modify fun r => { r with anchors := (name, n) :: r.anchors }
    return n

/-- Fails if a name is taken. -/
def checkFree (name : Option (List Char)) : Read Unit := do
  if let some name := name then
    if ((← get).anchors.lookup name).isSome then malformed

mutual

/-- Reads a node. In a block there may be blocks; after a key there may be items that are not indented. -/
def node (inBlock afterKey : Bool) : Nat → Read Node
  | 0 => malformed
  | fuel + 1 => do
    match ← peek with
    | some (.alias name) =>
      drop
      match (← get).anchors.lookup name with
      | some n => return n
      | none => malformed
    | _ =>
      let name ← anchor?
      checkFree name
      match ← peek with
      | some .item => if afterKey then bind name (.list (← looseItems fuel)) else absent name
      | some (.plain text) =>
        drop
        bind name (.plain text)
      | some (.text text) =>
        drop
        bind name (.text text)
      | some .sequenceOpen =>
        drop
        bind name (.list (← flowItems true fuel))
      | some .mappingOpen =>
        drop
        bind name (.map (← flowEntries true fuel))
      | some .blockSequence =>
        if inBlock then
          drop
          bind name (.list (← blockItems fuel))
        else absent name
      | some .blockMapping =>
        if inBlock then
          drop
          bind name (.map (← blockEntries fuel))
        else absent name
      | _ => absent name

/-- A node that is not there stands for null if it has a name, and is a defect otherwise. -/
def absent (name : Option (List Char)) : Read Node :=
  if name.isSome then bind name .absent else malformed

/-- Reads a node unless one of the given tokens, or the end, is in front. -/
def nodeUnless (ts : List Token) (inBlock afterKey : Bool) : Nat → Read Node
  | 0 => malformed
  | fuel + 1 => do
    if (← atOneOf ts) then return .absent
    node inBlock afterKey fuel

/-- Reads the items of a block. -/
def blockItems : Nat → Read (List Node)
  | 0 => malformed
  | fuel + 1 => do
    if ← accept .item then
      let v ← nodeUnless [.item, .blockEnd] true false fuel
      return v :: (← blockItems fuel)
    else
      expect .blockEnd
      return []

/-- Reads items that are not indented. -/
def looseItems : Nat → Read (List Node)
  | 0 => malformed
  | fuel + 1 => do
    if ← accept .item then
      let v ← nodeUnless [.item, .key, .colon, .blockEnd] true false fuel
      return v :: (← looseItems fuel)
    else return []

/-- Reads the entries of a block. -/
def blockEntries : Nat → Read (List (Node × Node))
  | 0 => malformed
  | fuel + 1 => do
    let stops := [Token.key, .colon, .blockEnd]
    if ← accept .key then
      let k ← nodeUnless stops true true fuel
      let n ← if ← accept .colon then nodeUnless stops true true fuel else pure .absent
      return (k, n) :: (← blockEntries fuel)
    else
      expect .blockEnd
      return []

/-- Reads the value of a key between brackets. -/
def flowValue (close : Token) : Nat → Read Node
  | 0 => malformed
  | fuel + 1 => do
    if ← accept .colon then nodeUnless [.comma, close] false false fuel else return .absent

/-- Reads the items up to the closing bracket; a key among them is a map of its own. -/
def flowItems (first : Bool) : Nat → Read (List Node)
  | 0 => malformed
  | fuel + 1 => do
    if ← accept .sequenceClose then return []
    if !first then expect .comma
    if ← accept .key then
      let k ← nodeUnless [.colon, .comma, .sequenceClose] false false fuel
      let n ← flowValue .sequenceClose fuel
      return .map [(k, n)] :: (← flowItems false fuel)
    else if ← accept .sequenceClose then return []
    else
      let v ← node false false fuel
      return v :: (← flowItems false fuel)

/-- Reads the entries up to the closing brace; an item among them is a key without a value. -/
def flowEntries (first : Bool) : Nat → Read (List (Node × Node))
  | 0 => malformed
  | fuel + 1 => do
    if ← accept .mappingClose then return []
    if !first then expect .comma
    if ← accept .key then
      let k ← nodeUnless [.colon, .comma, .mappingClose] false false fuel
      let n ← flowValue .mappingClose fuel
      return (k, n) :: (← flowEntries false fuel)
    else if ← accept .mappingClose then return []
    else
      let k ← node false false fuel
      return (k, .absent) :: (← flowEntries false fuel)

end

/-- Passes over marks that end the document. -/
def skipEnds : List Token → List Token
  | .documentEnd :: ts => skipEnds ts
  | ts => ts

/-- The node of a whole document. Each level of nesting takes at most three steps besides those that pass over
tokens. -/
def document : Read Node := do
  if ← atEnd then return .absent
  let explicit ← accept .documentStart
  let fuel := 4 * (← get).tokens.length + 8
  let n ←
    if explicit && ((← atEnd) || (← atOneOf [.documentStart, .documentEnd])) then pure .absent
    else node true false fuel
  modify fun r => { r with tokens := skipEnds r.tokens }
  if ← atEnd then return n else malformed

/-- Characters that may stand in a document. -/
def isAllowed (c : Char) : Bool :=
  let n := c.toNat
  n == 0x9 || n == 0xA || n == 0xD || (0x20 ≤ n && n ≤ 0x7E) || n == 0x85 || (0xA0 ≤ n && n ≤ 0xFFFD) || 0x10000 ≤ n

/-- The value of a text of one document, or its first defect. -/
def load (cs : List Char) : Except Defect Value := do
  if !cs.all isAllowed then .error .malformed
  let (tokens, defect) := tokens cs
  let (n, _) ← document.run { tokens, defect }
  n.read

end MarkdownTree.Yaml
