import MarkdownTree.Text.Encoding

/-!
# Sources

What a file holds: text, bytes that are still to be decoded, or code points of which some are halves of a pair that
stand alone and so make no text.
-/

namespace MarkdownTree

/-- The content of a file. -/
inductive Source where
  | text (s : String)
  | bytes (bs : List UInt8)
  | points (ns : List Nat)
deriving DecidableEq, Repr, Inhabited

namespace Source

/-- Half of a surrogate pair. -/
def isSurrogate (n : Nat) : Bool :=
  0xD800 ≤ n && n < 0xE000

/-- The content that a row of code points makes: text unless one of them is half of a pair. -/
def ofPoints (ns : List Nat) : Source :=
  if ns.any isSurrogate then .points ns else .text (String.ofList (ns.map Char.ofNat))

/-- Content that is still undecoded. -/
def isBinary : Source → Bool
  | bytes _ => true
  | _ => false

/-- The text that the content shows, which bytes show as far as they can be decoded. -/
def shown (e : Text.Encoding) : Source → Source
  | bytes bs => .text (String.ofList (e.decodeLossy bs))
  | s => s

end Source

end MarkdownTree
