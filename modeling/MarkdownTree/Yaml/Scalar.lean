import MarkdownTree.Value
import MarkdownTree.Yaml.Defect

/-!
# Plain scalars of YAML

What an unquoted word stands for by the rules of YAML 1.1: nothing, a truth value, a number in one of several bases, or
itself. A word has the form of a number before it is one: without a digit, or with too many, it stands for nothing.
-/

namespace MarkdownTree.Yaml

/-- Words for nothing. -/
def nullWords : List String :=
  ["", "~", "null", "Null", "NULL"]

/-- Words for true. -/
def trueWords : List String :=
  ["yes", "Yes", "YES", "true", "True", "TRUE", "on", "On", "ON"]

/-- Words for false. -/
def falseWords : List String :=
  ["no", "No", "NO", "false", "False", "FALSE", "off", "Off", "OFF"]

/-- A number's sign and the rest of it. -/
def splitSign : List Char → Bool × List Char
  | '-' :: cs => (true, cs)
  | '+' :: cs => (false, cs)
  | cs => (false, cs)

/-- A digit of a base, or an underscore, which may stand between digits. -/
def isDigitOf (base : Nat) (c : Char) : Bool :=
  c == '_' || (c.isDigit && c.toNat - '0'.toNat < base) || (base == 16 && (c.toLower.isAlpha && c.toLower ≤ 'f'))

/-- The value of a digit. -/
def digitOf (c : Char) : Nat :=
  if c.isDigit then c.toNat - '0'.toNat else c.toLower.toNat - 'a'.toNat + 10

/-- The number that digits write in a base. -/
def natOf (base : Nat) (cs : List Char) : Nat :=
  (cs.filter (· != '_')).foldl (fun n c => base * n + digitOf c) 0

/-- The most digits that a decimal numeral may have. -/
def maxDigits : Nat :=
  4300

/-- The number that a numeral of base two or sixteen writes; underscores alone write none. -/
def based (base : Nat) (cs : List Char) : Except Defect Nat :=
  if cs.all (· == '_') then .error (.noDigits base) else .ok (natOf base cs)

/-- The number that a decimal numeral writes. -/
def decimalOf (cs : List Char) : Except Defect Nat :=
  let digits := (cs.filter (· != '_')).length
  if maxDigits < digits then .error (.longNumeral digits) else .ok (natOf 10 cs)

/-- A nonempty row of digits, underscores among them. -/
def isNumeral (base : Nat) (cs : List Char) : Bool :=
  !cs.isEmpty && cs.all (isDigitOf base)

/-- A number below sixty after a colon. -/
def isSixtieth : List Char → Bool
  | [d] => d.isDigit
  | [t, d] => t.isDigit && t ≤ '5' && d.isDigit
  | _ => false

/-- The number that parts between colons write in base sixty. -/
def sixtiethsOf (parts : List (List Char)) : Except Defect Nat :=
  parts.foldlM (fun n part => return 60 * n + (← decimalOf part)) 0

/-- The parts of a text between colons. -/
def parts : List Char → List (List Char)
  | [] => [[]]
  | c :: cs =>
    match c, parts cs with
    | ':', ps => [] :: ps
    | c, p :: ps => (c :: p) :: ps
    | c, [] => [[c]]

/-- The size of an integer; `none` for a word that has not the form of one. -/
def natural? : List Char → Option (Except Defect Nat)
  | ['0'] => some (.ok 0)
  | '0' :: 'b' :: ds => if isNumeral 2 ds then some (based 2 ds) else none
  | '0' :: 'x' :: ds => if isNumeral 16 ds then some (based 16 ds) else none
  | '0' :: ds => if isNumeral 8 ds then some (.ok (natOf 8 ds)) else none
  | cs =>
    match parts cs with
    | first :: rest =>
      if (first.headD '_').isDigit && isNumeral 10 first && rest.all isSixtieth then some (sixtiethsOf (first :: rest))
      else none
    | [] => none

/-- The integer that a word writes. -/
def integer? (cs : List Char) : Option (Except Defect Int) :=
  let (negative, body) := splitSign cs
  (natural? body).map fun size => size.map fun n => if negative then -(n : Int) else n

/-- The number that parts between colons write in base sixty, from the last part, which has the fraction, to the first.
Each weight, each product and each sum moves to the nearest number. -/
def sumSixtieths (parts : List Floating) : Except Defect Floating :=
  parts.zipIdx.foldlM (fun sum (x, i) =>
    match Floating.ofRat (Nat.pow 60 i : Rat) with
    | .finite weight => .ok (.ofSum sum.size (Floating.ofProduct x.size (.finite weight.toRat)).size)
    | _ => .error .heavyPart) (.ofRat 0)

/-- The exponent at the end of a number, which has a sign; without one it is zero. -/
def exponent? : List Char → Option Int
  | [] => some 0
  | e :: s :: ds =>
    if (e == 'e' || e == 'E') && (s == '+' || s == '-') && !ds.isEmpty && ds.all Char.isDigit then
      some (if s = '-' then -(natOf 10 ds : Int) else natOf 10 ds)
    else none
  | _ => none

/-- The number that a word with a point writes: the whole part may be missing if there is no sign, and may be in base
sixty if there is no exponent. -/
def decimal? (cs : List Char) : Option (Except Defect Floating) := do
  let (negative, body) := splitSign cs
  let whole := body.takeWhile (· != '.')
  let rest ← (body.dropWhile (· != '.')).tail?
  let fraction := rest.takeWhile (isDigitOf 10)
  let exponent := rest.dropWhile (isDigitOf 10)
  let places : Int := (fraction.filter (· != '_')).length
  if whole.isEmpty then
    if cs.length = body.length && (fraction.headD '_').isDigit then
      return .ok (.read negative (natOf 10 fraction) ((← exponent? exponent) - places))
    else none
  else if !(whole.headD '_').isDigit then none
  else if isNumeral 10 whole then
    return .ok (.read negative (natOf 10 (whole ++ fraction)) ((← exponent? exponent) - places))
  else
    match parts whole with
    | first :: more =>
      if isNumeral 10 first && more.all isSixtieth && exponent.isEmpty then
        let last := (first :: more).getLastD []
        let others := (first :: more).dropLast.reverse
        let sum := sumSixtieths (.read false (natOf 10 (last ++ fraction)) (-places)
          :: others.map fun part => .read false (natOf 10 part) 0)
        some (sum.map fun x => x.signed negative)
      else none
    | [] => none

/-- The number that a word for one without digits stands for. -/
def special? (word : String) : Option Floating :=
  if [".inf", ".Inf", ".INF", "+.inf", "+.Inf", "+.INF"].contains word then some (.infinite false)
  else if ["-.inf", "-.Inf", "-.INF"].contains word then some (.infinite true)
  else if [".nan", ".NaN", ".NAN"].contains word then some .nan
  else none

/-- What an unquoted word stands for. The words for merging and for a default have no value of their own. -/
def resolve (cs : List Char) : Except Defect Value :=
  let word := String.ofList cs
  if word = "<<" ∨ word = "=" then .error .malformed
  else if nullWords.contains word then .ok .null
  else if trueWords.contains word then .ok (.bool true)
  else if falseWords.contains word then .ok (.bool false)
  else
    match integer? cs, decimal? cs, special? word with
    | some n, _, _ => n.map .int
    | none, some x, _ => x.map .float
    | none, none, some x => .ok (.float x)
    | none, none, none => .ok (.text word)

end MarkdownTree.Yaml
