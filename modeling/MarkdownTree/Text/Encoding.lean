/-!
# Encodings

Characters from bytes. A stretch of bytes that is no character is either an error at its first byte or reads as one
replacement character; it is as long as the longest start of a character that it holds.
-/

namespace MarkdownTree.Text

/-- How characters are written as bytes. -/
inductive Encoding where
  | utf8
  | latin1
  | ascii
deriving DecidableEq, Repr, Inhabited

namespace Encoding

/-- The name of an encoding in messages. -/
def name : Encoding → String
  | utf8 => "utf-8"
  | latin1 => "latin-1"
  | ascii => "ascii"

/-- The encoding of a given name. -/
def ofName? (s : String) : Option Encoding :=
  [utf8, latin1, ascii].find? (·.name == s)

/-- The bytes that may follow a leading byte, as a range, and how many bytes follow it in all. -/
def following? (lead : Nat) : Option ((Nat × Nat) × Nat) :=
  if lead < 0xC2 then none
  else if lead < 0xE0 then some ((0x80, 0xBF), 1)
  else if lead = 0xE0 then some ((0xA0, 0xBF), 2)
  else if lead = 0xED then some ((0x80, 0x9F), 2)
  else if lead < 0xF0 then some ((0x80, 0xBF), 2)
  else if lead = 0xF0 then some ((0x90, 0xBF), 3)
  else if lead < 0xF4 then some ((0x80, 0xBF), 3)
  else if lead = 0xF4 then some ((0x80, 0x8F), 3)
  else none

/-- How many bytes go on a character, of which at most `size` can; only the first has a range of its own. -/
def goingOn (range : Nat × Nat) : Nat → List UInt8 → Nat
  | size + 1, b :: bs =>
    if range.1 ≤ b.toNat ∧ b.toNat ≤ range.2 then goingOn (0x80, 0xBF) size bs + 1 else 0
  | _, _ => 0

/-- The value of a leading byte without the bits that tell its length. -/
def leadValue (lead size : Nat) : Nat :=
  lead % Nat.pow 2 (6 - size)

/-- The code point of a leading byte and the bytes after it. -/
def codePoint (lead : Nat) (rest : List UInt8) : Nat :=
  rest.foldl (fun n b => 64 * n + b.toNat % 64) (leadValue lead rest.length)

/-- The character that a byte starts, if there is one, and how many bytes after the first belong to it or to the
stretch that is none. -/
def readChar (e : Encoding) (b : UInt8) (bs : List UInt8) : Option Char × Nat :=
  if b.toNat < 0x80 then (some (Char.ofNat b.toNat), 0)
  else
    match e with
    | ascii => (none, 0)
    | latin1 => (some (Char.ofNat b.toNat), 0)
    | utf8 =>
      match following? b.toNat with
      | none => (none, 0)
      | some (range, size) =>
        let more := goingOn range size bs
        if more = size then (some (Char.ofNat (codePoint b.toNat (bs.take size))), size) else (none, more)

/-- The characters of a row of bytes that starts at an offset, or the offset of a byte that belongs to none. -/
def decodeFrom (e : Encoding) (offset : Nat) : List UInt8 → Except Nat (List Char)
  | [] => .ok []
  | b :: bs =>
    match e.readChar b bs with
    | (none, _) => .error offset
    | (some c, more) => do
      let cs ← decodeFrom e (offset + more + 1) (bs.drop more)
      return c :: cs
termination_by bs => bs.length
decreasing_by simp only [List.length_drop, List.length_cons]; omega

/-- The characters of a row of bytes, or the offset of the first byte that belongs to none. -/
def decode (e : Encoding) (bs : List UInt8) : Except Nat (List Char) :=
  e.decodeFrom 0 bs

/-- The characters of a row of bytes, with a replacement character for each stretch that is none. -/
def decodeLossy (e : Encoding) : List UInt8 → List Char
  | [] => []
  | b :: bs =>
    let (c, more) := e.readChar b bs
    c.getD '\uFFFD' :: decodeLossy e (bs.drop more)
termination_by bs => bs.length
decreasing_by simp only [List.length_drop, List.length_cons]; omega

end Encoding

end MarkdownTree.Text
