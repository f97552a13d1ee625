import MarkdownTree.Number.Decimal

/-!
# Floating numbers

Numbers with a fraction, among them the two infinities and the one that is no number at all, and the sizes by which
numbers of every type are compared. Nothing is equal to what is no number, before it or after it.
-/

namespace MarkdownTree

/-- The size of a number. -/
inductive Size where
  | finite (r : Rat)
  | infinite (negative : Bool)
  /-- The size of what is no number. -/
  | undefined
deriving DecidableEq, Repr

namespace Size

/-- Two sizes are equal as numbers. -/
def same : Size → Size → Bool
  | finite r, finite s => r == s
  | infinite m, infinite n => m == n
  | _, _ => false

/-- One size is below another. -/
def below : Size → Size → Bool
  | finite r, finite s => r < s
  | finite _, infinite negative => !negative
  | infinite negative, finite _ => negative
  | infinite m, infinite n => m && !n
  | _, _ => false

/-- One size is not above another. -/
def upTo (a b : Size) : Bool :=
  below a b || same a b

/-- The size of an integer. -/
def ofInt (n : Int) : Size :=
  finite (n : Rat)

theorem below_ofInt (m n : Int) : (ofInt m).below (ofInt n) = decide (m < n) := by
  rw [ofInt, ofInt, below, decide_eq_decide]
  exact Rat.intCast_lt_intCast

theorem upTo_ofInt (m n : Int) : (ofInt m).upTo (ofInt n) = decide (m ≤ n) := by
  rw [Bool.eq_iff_iff, upTo, below_ofInt, ofInt, ofInt, same]
  simp only [Bool.or_eq_true, decide_eq_true_eq, beq_iff_eq, Rat.intCast_inj]
  omega

end Size

/-- A number with a fraction. -/
inductive Floating where
  | finite (b : Binary)
  | infinite (negative : Bool)
  | nan
deriving DecidableEq, Repr, Inhabited

namespace Floating

/-- The size of the number. -/
def size : Floating → Size
  | finite b => .finite b.toRat
  | infinite negative => .infinite negative
  | nan => .undefined

/-- The number nearest to `± digits · 10 ^ exponent`. -/
def read (negative : Bool) (digits : Nat) (exponent : Int) : Floating :=
  match Binary.read? negative digits exponent with
  | some b => finite b
  | none => infinite negative

/-- The number nearest to another. -/
def ofRat (r : Rat) : Floating :=
  match Binary.ofRat? r with
  | some b => finite b
  | none => infinite (r < 0)

/-- The sum of two numbers of the given sizes. -/
def ofSum : Size → Size → Floating
  | .finite r, .finite s => ofRat (r + s)
  | .finite _, .infinite negative | .infinite negative, .finite _ => infinite negative
  | .infinite m, .infinite n => if m = n then infinite m else nan
  | _, _ => nan

/-- The product of two numbers of the given sizes, for a second one above zero. -/
def ofProduct : Size → Size → Floating
  | .finite r, .finite s => ofRat (r * s)
  | .infinite negative, .finite _ | .infinite negative, .infinite _ => infinite negative
  | .finite r, .infinite _ => if r = 0 then nan else infinite (r < 0)
  | _, _ => nan

/-- The number is zero, with whatever sign. -/
def isZero : Floating → Bool
  | finite b => b.significand == 0
  | _ => false

/-- The number with the sign turned round if `flip` holds. -/
def signed (flip : Bool) : Floating → Floating
  | finite b => finite { b with negative := b.negative ^^ flip }
  | infinite negative => infinite (negative ^^ flip)
  | nan => nan

/-- The text of the number. -/
def text : Floating → String
  | finite b => b.text
  | infinite negative => if negative then "-inf" else "inf"
  | nan => "nan"

end Floating

end MarkdownTree
