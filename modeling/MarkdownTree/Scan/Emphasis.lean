import MarkdownTree.Scan.Piece

/-!
# Emphasis

Runs of delimiters are paired from left to right: a run that can close looks back for the nearest run of the same
character that can open. Two delimiters of each run make strong emphasis, one makes emphasis, and what lies between the
runs becomes the children.
-/

namespace MarkdownTree.Scan

namespace Run

/-- The rule of three: runs that could both open and close do not pair when their lengths add up to a multiple of three,
unless both lengths are. -/
def excludes (opener closer : Run) : Bool :=
  (opener.canClose || closer.canOpen) && (opener.initial + closer.initial) % 3 == 0
    && !(opener.initial % 3 == 0 && closer.initial % 3 == 0)

/-- The first run can open emphasis that the second closes. -/
def pairs (opener closer : Run) : Bool :=
  opener.mark == closer.mark && opener.canOpen && 0 < opener.count && !excludes opener closer

end Run

namespace Emphasis

/-- The nearest run that pairs with a closer, among the pieces before it (the nearest first): the pieces in between,
the run, and the pieces before it. -/
def findOpener? (closer : Run) : List Piece → Option (List Piece × Run × List Piece)
  | [] => none
  | p :: before =>
    let further := (findOpener? closer before).map fun (between, found) => (p :: between, found)
    match p with
    | .run r => if r.pairs closer then some ([], r, before) else further
    | _ => further

/-- The node of so many delimiters from the end of one run and the start of another. -/
def pairNode (used : Nat) (opener closer : Run) (between : List Piece) : Piece :=
  .node (opener.stop - used) (closer.start + used) (if used = 2 then .strong else .emphasis) between.reverse

/-- A run as a piece, unless nothing is left of it. -/
def remains (r : Run) : List Piece :=
  if r.count = 0 then [] else [.run r]

/-- How many steps a piece can take: each takes a delimiter or passes the piece. -/
def weight : Piece → Nat
  | .run r => r.count + 1
  | _ => 1

theorem weight_pos (p : Piece) : 0 < weight p := by
  cases p <;> simp [weight]

/-- A bound on the steps still to take. -/
def work : List Piece → Nat
  | [] => 0
  | p :: ps => weight p + work ps

/-- Pairs the runs of the pieces still to come with those before them (the nearest first). -/
def resolveFrom (before : List Piece) : List Piece → List Piece
  | [] => before.reverse
  | .run closer :: rest =>
    if _h : closer.canClose = true ∧ 0 < closer.count then
      match findOpener? closer before with
      | none => resolveFrom (.run closer :: before) rest
      | some (between, opener, further) =>
        let used := if 2 ≤ opener.count ∧ 2 ≤ closer.count then 2 else 1
        let before := pairNode used opener closer between :: (remains (opener.takeEnd used) ++ further)
        let closer' := closer.takeStart used
        if closer'.count = 0 then resolveFrom before rest else resolveFrom before (.run closer' :: rest)
    else resolveFrom (.run closer :: before) rest
  | p :: rest => resolveFrom (p :: before) rest
termination_by ps => work ps
decreasing_by
  · simp only [work, weight]; omega
  · simp only [work, weight]; omega
  · simp only [work, weight, Run.takeStart]; split <;> omega
  · simp only [work, weight]; omega
  · have := weight_pos p
    simp only [work]; omega

/-- The pieces with their runs paired as far as they can be. -/
def resolve (ps : List Piece) : List Piece :=
  resolveFrom [] ps

end Emphasis

end MarkdownTree.Scan
