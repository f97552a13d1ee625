/-!
# Defects of YAML texts

Why a text gives no value. Most texts that give none are malformed: they are not written as the grammar asks, or what
they write does not fit together. The other defects are those of words and escapes whose form is right and which stand
for nothing all the same.
-/

namespace MarkdownTree.Yaml

/-- Why a text gives no value. -/
inductive Defect where
  | malformed
  /-- A numeral of a base without a digit. -/
  | noDigits (base : Nat)
  /-- A numeral of more digits than are read. -/
  | longNumeral (digits : Nat)
  /-- A part of a number in base sixty that weighs more than any number with a fraction. -/
  | heavyPart
  /-- An escape whose number is no character's. -/
  | codePoint (number : Nat)
deriving DecidableEq, Repr

/-- What was found; if it is nothing, the text is malformed. -/
def orMalformed {α : Type} : Option α → Except Defect α
  | some a => .ok a
  | none => .error .malformed

end MarkdownTree.Yaml
