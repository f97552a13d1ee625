import MarkdownTree.Fault

/-!
# Points and positions

A point is a place in a source text; a position is the span between two points, the second one excluded.
-/

namespace MarkdownTree

/-- A place in a source text: line and column count from one, the offset from zero. -/
structure Point where
  line : Int
  column : Int
  offset : Int
deriving DecidableEq, Repr, Inhabited

/-- The span of source text that a node was read from. -/
structure Position where
  start : Point
  stop : Point
deriving DecidableEq, Repr, Inhabited

namespace Position

/-- A position never ends before it starts. -/
def Ordered (p : Position) : Prop :=
  p.start.offset ≤ p.stop.offset

instance (p : Position) : Decidable p.Ordered :=
  inferInstanceAs (Decidable (_ ≤ _))

/-- The position between two points, unless the second comes first. -/
def between? (start stop : Point) : Option Position :=
  if start.offset ≤ stop.offset then some ⟨start, stop⟩ else none

theorem ordered_of_between? {start stop : Point} {p : Position} (h : between? start stop = some p) :
    p.Ordered := by
  unfold between? at h
  split at h
  · cases h; assumption
  · cases h

/-- The position between two points, or the fault that the second comes first. -/
def make (start stop : Point) : Except Fault Position :=
  match between? start stop with
  | some p => .ok p
  | none => .error (.value (.invertedPosition start.offset stop.offset))

/-- The second span lies within the first. -/
def contains (p q : Position) : Bool :=
  p.start.offset ≤ q.start.offset && q.stop.offset ≤ p.stop.offset

/-- Two spans share at least one character. -/
def overlaps (p q : Position) : Bool :=
  p.start.offset < q.stop.offset && q.start.offset < p.stop.offset

/-- An offset as an index into a text of the given length: negative offsets count from the end. -/
def clampIndex (length : Nat) (offset : Int) : Nat :=
  if offset < 0 then (offset + length).toNat else min offset.toNat length

/-- The part of a text that a span covers. -/
def slice (p : Position) (text : List Char) : List Char :=
  let start := clampIndex text.length p.start.offset
  let stop := clampIndex text.length p.stop.offset
  (text.take stop).drop start

end Position

end MarkdownTree
