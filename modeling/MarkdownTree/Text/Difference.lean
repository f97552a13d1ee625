/-!
# Differences of texts

How two rows of lines differ. The longest run of lines that both have is kept, then the same is done before and after
it; what is left over is changed. The changes are shown in hunks with some unchanged lines around them.
-/

namespace MarkdownTree.Text

/-- A run of lines that stand in both rows: where it starts in each of them, and its length. -/
structure Run where
  before : Nat
  after : Nat
  size : Nat
deriving DecidableEq, Repr

/-- For each line of the second row, the length of the run of usable lines that ends with it and with `x`; `diagonal`
and the given lengths are those of the line before `x`. -/
def nextRow (usable : String → Bool) (x : String) (diagonal : Nat) : List String → List Nat → List Nat
  | b :: bs, p :: ps => (if x = b ∧ usable b then diagonal + 1 else 0) :: nextRow usable x p bs ps
  | _, _ => []

/-- The longest run so far after another row of lengths, of which the first of the longest counts. -/
def longer (index : Nat) (best : Run) (row : List Nat) : Run :=
  row.zipIdx.foldl (fun best (k, j) =>
    if best.size < k then ⟨index + 1 - k, j + 1 - k, k⟩ else best) best

/-- The longest run of usable lines, from the line with the given index on. -/
def longestRun (usable : String → Bool) (bs : List String) (index : Nat) (row : List Nat) (best : Run) :
    List String → Run
  | [] => best
  | a :: as =>
    let row := nextRow usable a 0 bs row
    longestRun usable bs (index + 1) row (longer index best row) as

/-- The number of equal lines at the starts of two rows. -/
def commonLength : List String → List String → Nat
  | a :: as, b :: bs => if a = b then commonLength as bs + 1 else 0
  | _, _ => 0

/-- A run with the equal lines directly around it. -/
def Run.widen (as bs : List String) (r : Run) : Run :=
  let back := commonLength (as.take r.before).reverse (bs.take r.after).reverse
  let on := commonLength (as.drop (r.before + r.size)) (bs.drop (r.after + r.size))
  ⟨r.before - back, r.after - back, back + r.size + on⟩

/-- The run that is kept first. -/
def keptRun (usable : String → Bool) (as bs : List String) : Run :=
  (longestRun usable bs 0 (bs.map fun _ => 0) ⟨0, 0, 0⟩ as).widen as bs

/-- A part of two rows of lines. -/
inductive Passage where
  | same (lines : List String)
  | changed (before after : List String)
deriving DecidableEq, Repr

namespace Passage

/-- The lines of the first row. -/
def before : Passage → List String
  | same ls => ls
  | changed ls _ => ls

/-- The lines of the second row. -/
def after : Passage → List String
  | same ls => ls
  | changed _ ls => ls

end Passage

/-- The passages of two rows, each between the runs that are kept; `fuel` bounds how often rows are cut. -/
def cut (usable : String → Bool) : Nat → List String → List String → List Passage
  | 0, as, bs => [.changed as bs]
  | fuel + 1, as, bs =>
    let r := keptRun usable as bs
    if r.size = 0 then (if as.isEmpty && bs.isEmpty then [] else [.changed as bs])
    else
      cut usable fuel (as.take r.before) (bs.take r.after)
        ++ .same ((as.drop r.before).take r.size)
        :: cut usable fuel (as.drop (r.before + r.size)) (bs.drop (r.after + r.size))

/-- Passages with neighbours that are both unchanged put together. -/
def joinSame : List Passage → List Passage
  | [] => []
  | p :: ps =>
    match p, joinSame ps with
    | .same ls, .same ms :: rest => .same (ls ++ ms) :: rest
    | p, rest => p :: rest

/-- Lines that are so frequent in a long row that runs do not start with them. -/
def isFrequent (row : List String) (line : String) : Bool :=
  200 ≤ row.length && row.length / 100 + 1 < row.count line

/-- The passages of two rows of lines. -/
def passages (as bs : List String) : List Passage :=
  joinSame (cut (fun b => !isFrequent bs b) (as.length + bs.length + 1) as bs)

/-! ### Hunks -/

/-- Passages shown together: where they start in each row, and what they are. -/
structure Hunk where
  before : Nat
  after : Nat
  passages : List Passage
deriving Repr

/-- The hunk with a passage more. -/
def Hunk.add (h : Hunk) (p : Passage) : Hunk :=
  { h with passages := h.passages ++ [p] }

/-- The hunks of passages from given places on, after the hunk under way; `context` unchanged lines are shown on
either side of a change. -/
def hunksFrom (context i j : Nat) (h : Hunk) : List Passage → List Hunk
  | [] => [h]
  | .changed ls ms :: rest => hunksFrom context (i + ls.length) (j + ms.length) (h.add (.changed ls ms)) rest
  | [.same ls] => [h.add (.same (ls.take context))]
  | .same ls :: rest =>
    let n := ls.length
    if 2 * context < n then
      let next : Hunk := ⟨i + n - context, j + n - context, [.same (ls.drop (n - context))]⟩
      h.add (.same (ls.take context)) :: hunksFrom context (i + n) (j + n) next rest
    else hunksFrom context (i + n) (j + n) (h.add (.same ls)) rest

/-- The hunks of all passages; there are none where nothing is changed. -/
def hunks (context : Nat) : List Passage → List Hunk
  | [] | [.same _] => []
  | .same ls :: rest =>
    let n := ls.length
    let skipped := n - context
    hunksFrom context n n ⟨skipped, skipped, [.same (ls.drop skipped)]⟩ rest
  | ps => hunksFrom context 0 0 ⟨0, 0, []⟩ ps

/-- The range of lines of a hunk in one row: a single line by its number, any other by its start and length. -/
def rangeText (start length : Nat) : String :=
  if length = 1 then toString (start + 1)
  else toString (if length = 0 then start else start + 1) ++ "," ++ toString length

/-- The lines that show a passage. -/
def Passage.shown : Passage → List String
  | same ls => ls.map (" " ++ ·)
  | changed ls ms => ls.map ("-" ++ ·) ++ ms.map ("+" ++ ·)

/-- The lines that show a hunk. -/
def Hunk.shown (h : Hunk) : List String :=
  let before := (h.passages.flatMap Passage.before).length
  let after := (h.passages.flatMap Passage.after).length
  ("@@ -" ++ rangeText h.before before ++ " +" ++ rangeText h.after after ++ " @@") :: h.passages.flatMap Passage.shown

/-- The lines that show how two rows of lines differ, with the names of the rows; none if they are equal. -/
def difference (beforeName afterName : String) (as bs : List String) : List String :=
  match hunks 3 (passages as bs) with
  | [] => []
  | hs => ("--- " ++ beforeName) :: ("+++ " ++ afterName) :: hs.flatMap Hunk.shown

end MarkdownTree.Text
