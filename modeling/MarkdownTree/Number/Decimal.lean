import MarkdownTree.Number.Binary

/-!
# Decimal text of binary numbers

A binary number is written with the fewest decimal digits that no other binary number is nearest to, so what is written
is read back as the same number.
-/

namespace MarkdownTree

/-- The number `digits · 10 ^ exponent`. -/
structure Decimal where
  digits : Nat
  exponent : Int
deriving DecidableEq, Repr, Inhabited

namespace Decimal

/-- The largest `e` with `10 ^ e ≤ r`, for a positive `r`; looks no further than `fuel` steps. -/
def floorLog10 : Nat → Int → Rat → Int
  | 0, e, _ => e
  | fuel + 1, e, r =>
    if tenPow (e + 1) ≤ r then floorLog10 fuel (e + 1) r
    else if r < tenPow e then floorLog10 fuel (e - 1) r
    else e

/-- The decimal with a given last place that is nearest to a binary number among those that the number is nearest
to. -/
def onGrid? (b : Binary) (place : Int) : Option Decimal :=
  let r := b.magnitude
  let low := (r / tenPow place).floor.toNat
  let denotes := fun n : Nat => n ≠ 0 ∧ Binary.nearest b.negative ((n : Rat) * tenPow place) = b
  let below := r - (low : Rat) * tenPow place
  let above := ((low + 1 : Nat) : Rat) * tenPow place - r
  if denotes low ∧ (denotes (low + 1) → below ≤ above) then some ⟨low, place⟩
  else if denotes (low + 1) then some ⟨low + 1, place⟩
  else none

/-- Moves trailing zeros of the digits, at most `fuel` of them, into the exponent. -/
def normalize : Nat → Decimal → Decimal
  | 0, d => d
  | fuel + 1, d => if d.digits ≠ 0 ∧ d.digits % 10 = 0 then normalize fuel ⟨d.digits / 10, d.exponent + 1⟩ else d

/-- The shortest digits of a binary number without its sign. -/
def shortest (b : Binary) : Decimal :=
  let top := floorLog10 700 0 b.magnitude
  match (List.range 17).findSome? fun (n : Nat) => onGrid? b (top - (n : Int)) with
  | some d => normalize 20 d
  | none => ⟨0, 0⟩

/-- The digits written with a point `point` places after their start. -/
def positional (digits : List Char) (point : Int) : List Char :=
  if point ≤ 0 then
    '0' :: '.' :: List.replicate (-point).toNat '0' ++ digits
  else if digits.length ≤ point.toNat then
    digits ++ List.replicate (point.toNat - digits.length) '0' ++ ['.', '0']
  else
    digits.take point.toNat ++ '.' :: digits.drop point.toNat

/-- An exponent, which has a sign and at least two digits. -/
def exponentText (e : Int) : List Char :=
  let ds := (toString e.natAbs).toList
  (if e < 0 then '-' else '+') :: (if ds.length < 2 then '0' :: ds else ds)

/-- The text of the number: positional from `0.0001` up to below `10 ^ 16`, with an exponent otherwise. -/
def text (d : Decimal) : List Char :=
  let ds := (toString d.digits).toList
  let point : Int := d.exponent + ds.length
  if d.digits = 0 then ['0', '.', '0']
  else if -4 < point ∧ point ≤ 16 then positional ds point
  else ds.take 1 ++ (if ds.length = 1 then [] else '.' :: ds.drop 1) ++ 'e' :: exponentText (point - 1)

end Decimal

/-- The text of a binary number. A zero keeps its sign. -/
def Binary.text (b : Binary) : String :=
  let body := if b.significand = 0 then ['0', '.', '0'] else (Decimal.shortest b).text
  String.ofList (if b.negative then '-' :: body else body)

end MarkdownTree
