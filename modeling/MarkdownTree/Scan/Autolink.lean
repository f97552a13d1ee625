import MarkdownTree.Text.Blank

/-!
# Autolinks

An address between angle brackets links to itself: a URI with its scheme, or a mail address.
-/

namespace MarkdownTree.Scan.Autolink

open Text

/-- Letters and digits of ASCII. -/
def isWord (c : Char) : Bool :=
  c.isAlphanum

/-- The address at the start of a text if it is a URI: a scheme of two to 32 characters, a colon, and then anything but
blanks, angle brackets and controls, up to a closing bracket. -/
def uri? (cs : List Char) : Option (List Char) :=
  match cs with
  | [] => none
  | c :: rest =>
    let scheme := rest.takeWhile fun d => isWord d || d == '+' || d == '.' || d == '-'
    match rest.drop scheme.length with
    | ':' :: after =>
      let body := after.takeWhile fun d => !(isBlank d || d == '<' || d == '>' || d.toNat < 0x20)
      if c.isAlpha ∧ 1 ≤ scheme.length ∧ scheme.length ≤ 31 ∧ (after.drop body.length).head? = some '>' then
        some (c :: scheme ++ ':' :: body)
      else none
    | _ => none

/-- The marks that may stand in the local part of a mail address. -/
def localMarks : List Char :=
  ['.', '!', '#', '$', '%', '&', '\'', '*', '+', '/', '=', '?', '^', '_', '\x60', '{', '|', '}', '~', '-']

/-- A label of a host name: up to 63 letters, digits and hyphens, with no hyphen at either end. -/
def isLabel (cs : List Char) : Bool :=
  cs.length ≤ 63 && cs.head?.any isWord && cs.getLast?.any isWord

/-- The address at the start of a text if it is a mail address, up to a closing bracket. -/
def mail? (cs : List Char) : Option (List Char) :=
  let name := cs.takeWhile fun d => isWord d || localMarks.contains d
  match cs.drop name.length with
  | '@' :: after =>
    let host := after.takeWhile fun d => isWord d || d == '-' || d == '.'
    if 1 ≤ name.length ∧ (fields '.' host).all isLabel ∧ (after.drop host.length).head? = some '>' then
      some (name ++ '@' :: host)
    else none
  | _ => none

/-- The address at the start of a text and where it leads. -/
def read? (cs : List Char) : Option (List Char × List Char) :=
  match uri? cs with
  | some address => some (address, address)
  | none => (mail? cs).map fun address => (address, "mailto:".toList ++ address)

end MarkdownTree.Scan.Autolink
