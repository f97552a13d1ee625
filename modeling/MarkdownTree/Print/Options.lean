/-!
# Printer settings

Which of several marks that mean the same the printer writes.
-/

namespace MarkdownTree

/-- The marks of unordered list items. -/
inductive Bullet where
  | star
  | hyphen
  | plus
deriving DecidableEq, Repr, Inhabited

/-- The mark as it is written. -/
def Bullet.char : Bullet → Char
  | star => '*'
  | hyphen => '-'
  | plus => '+'

/-- The delimiters of emphasis. -/
inductive Delimiter where
  | star
  | underscore
deriving DecidableEq, Repr, Inhabited

namespace Delimiter

/-- The delimiter as it is written. -/
def char : Delimiter → Char
  | star => '*'
  | underscore => '_'

/-- The other delimiter. -/
def other : Delimiter → Delimiter
  | star => underscore
  | underscore => star

end Delimiter

/-- The marks of code fences. -/
inductive FenceMark where
  | backtick
  | tilde
deriving DecidableEq, Repr, Inhabited

/-- The mark as it is written. -/
def FenceMark.char : FenceMark → Char
  | backtick => '\x60'
  | tilde => '~'

/-- The marks of rules. -/
inductive RuleMark where
  | star
  | hyphen
  | underscore
deriving DecidableEq, Repr, Inhabited

/-- The mark as it is written. -/
def RuleMark.char : RuleMark → Char
  | star => '*'
  | hyphen => '-'
  | underscore => '_'

/-- The marks after the numbers of ordered list items. -/
inductive NumberMark where
  | period
  | parenthesis
deriving DecidableEq, Repr, Inhabited

/-- The mark as it is written. -/
def NumberMark.char : NumberMark → Char
  | period => '.'
  | parenthesis => ')'

/-- Which marks a printer writes, whether headings are underlined where they can be, and whether marked headings are
closed. -/
structure PrintOptions where
  bullet : Bullet := .star
  emphasis : Delimiter := .star
  strong : Delimiter := .star
  fence : FenceMark := .backtick
  rule : RuleMark := .star
  setext : Bool := false
  numberMark : NumberMark := .period
  closeAtx : Bool := false
deriving DecidableEq, Repr, Inhabited

end MarkdownTree
