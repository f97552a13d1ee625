/-!
# Binary numbers

The numbers `± significand · 2 ^ exponent` whose significand has at most 53 bits and whose exponent is bounded on both
sides. What is read or computed moves to the nearest of them, and of two that are equally near to the even one. They
are compared and added as the exact numbers that they are.
-/

namespace MarkdownTree

/-- A power of ten with any exponent. -/
def tenPow (e : Int) : Rat :=
  if 0 ≤ e then (Nat.pow 10 e.toNat : Rat) else 1 / (Nat.pow 10 (-e).toNat : Rat)

/-- A power of two with any exponent. -/
def twoPow (e : Int) : Rat :=
  if 0 ≤ e then (Nat.pow 2 e.toNat : Rat) else 1 / (Nat.pow 2 (-e).toNat : Rat)

/-- The nearest integer to a number that is not negative; a half goes to the even neighbour. -/
def roundEven (r : Rat) : Nat :=
  let low := r.floor.toNat
  let rest := r - (low : Rat)
  if rest < 1 / 2 then low
  else if 1 / 2 < rest then low + 1
  else if low % 2 = 0 then low else low + 1

/-- The largest `e` with `2 ^ e ≤ r`, for a positive `r`. -/
def floorLog2 (r : Rat) : Int :=
  let guess : Int := (Nat.log2 r.num.natAbs : Int) - (Nat.log2 r.den : Int)
  if twoPow (guess + 1) ≤ r then guess + 1
  else if twoPow guess ≤ r then guess
  else guess - 1

/-- The number `± significand · 2 ^ exponent`. Zero has a sign too. -/
structure Binary where
  negative : Bool
  significand : Nat
  exponent : Int
deriving DecidableEq, Repr, Inhabited

namespace Binary

/-- Zero with a sign. -/
def zero (negative : Bool) : Binary :=
  ⟨negative, 0, 0⟩

/-- The number without its sign. -/
def magnitude (b : Binary) : Rat :=
  (b.significand : Rat) * twoPow b.exponent

/-- The number itself. -/
def toRat (b : Binary) : Rat :=
  if b.negative then -b.magnitude else b.magnitude

/-- The binary number nearest to a positive number, with the given sign: its significand is below `2 ^ 53`, and at
least `2 ^ 52` unless the exponent is the least one. -/
def nearest (negative : Bool) (r : Rat) : Binary :=
  let k := max (floorLog2 r - 52) (-1074)
  let m := roundEven (r / twoPow k)
  if m = 0 then zero negative
  else if m = Nat.pow 2 53 then ⟨negative, Nat.pow 2 52, k + 1⟩
  else ⟨negative, m, k⟩

/-- The number, unless its exponent is beyond the largest one. -/
def inRange? (b : Binary) : Option Binary :=
  if b.exponent ≤ 971 then some b else none

/-- The binary number nearest to `± digits · 10 ^ exponent`; `none` beyond the range. Exponents that lead far beyond
the range on either side are not computed with. -/
def read? (negative : Bool) (digits : Nat) (exponent : Int) : Option Binary :=
  let size : Int := (toString digits).length + exponent
  if digits = 0 ∨ size < -330 then some (zero negative)
  else if 310 < size then none
  else (nearest negative ((digits : Rat) * tenPow exponent)).inRange?

/-- The binary number nearest to a number; `none` beyond the range. -/
def ofRat? (r : Rat) : Option Binary :=
  if r = 0 then some (zero false)
  else if r < 0 then (nearest true (-r)).inRange?
  else (nearest false r).inRange?

end Binary

/-- What a computed number becomes: a whole number stays, any other one moves to the nearest binary number. -/
def settle (r : Rat) : Rat :=
  if r.den = 1 then r else ((Binary.ofRat? r).map Binary.toRat).getD r

end MarkdownTree
