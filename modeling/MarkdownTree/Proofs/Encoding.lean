import MarkdownTree.Text.Encoding
import Mathlib.Data.List.Basic

/-!
# Decoding undoes encoding

An encoding writes a character as some bytes, if it has the character at all.  Decoding gives the one row of characters
that is written as the bytes, and fails if there is none (`decode_eq_ok_iff`).
-/

namespace MarkdownTree.Text.Encoding

/-- The bytes of a character, if the encoding has it. -/
def bytesOf? (e : Encoding) (c : Char) : Option (List UInt8) :=
  match e with
  | utf8 => some (String.utf8EncodeChar c)
  | latin1 => if c.toNat < 0x100 then some [.ofNat c.toNat] else none
  | ascii => if c.toNat < 0x80 then some [.ofNat c.toNat] else none

/-- The bytes of a row of characters, if the encoding has all of them. -/
def encode? (e : Encoding) : List Char → Option (List UInt8)
  | [] => some []
  | c :: cs => do return (← e.bytesOf? c) ++ (← e.encode? cs)

/-! ### Bytes and code points -/

private theorem toNat_ofNat {n : Nat} (h : n < 256) : (UInt8.ofNat n).toNat = n := by
  rw [UInt8.toNat_ofNat']
  omega

private theorem ofNat_eq {n : Nat} {b : UInt8} (h : n = b.toNat) : UInt8.ofNat n = b := by
  rw [h, UInt8.ofNat_toNat]

private theorem toNat_char {n : Nat} (h : n.isValidChar) : (Char.ofNat n).toNat = n := by
  rw [Char.ofNat, dif_pos h]
  rfl

/-- The leading byte tells how many bytes follow it, and keeps out overlong characters and halves of pairs. -/
private theorem following?_cases {lead size : Nat} {range : Nat × Nat} (h : following? lead = some (range, size)) :
    (size = 1 ∧ 0xC2 ≤ lead ∧ lead < 0xE0 ∧ range = (0x80, 0xBF)) ∨
    (size = 2 ∧ 0xE0 ≤ lead ∧ lead < 0xF0 ∧
      range = (if lead = 0xE0 then 0xA0 else 0x80, if lead = 0xED then 0x9F else 0xBF)) ∨
    (size = 3 ∧ 0xF0 ≤ lead ∧ lead ≤ 0xF4 ∧
      range = (if lead = 0xF0 then 0x90 else 0x80, if lead = 0xF4 then 0x8F else 0xBF)) := by
  unfold following? at h
  split_ifs at h <;> cases h <;> grind

private theorem goingOn_succ {range : Nat × Nat} {size : Nat} {bs : List UInt8}
    (h : goingOn range (size + 1) bs = size + 1) :
    ∃ b rest, bs = b :: rest ∧ range.1 ≤ b.toNat ∧ b.toNat ≤ range.2 ∧ goingOn (0x80, 0xBF) size rest = size := by
  cases bs with
  | nil => cases h
  | cons b rest =>
    rw [goingOn] at h
    split at h
    · rename_i hb
      exact ⟨b, rest, rfl, hb.1, hb.2, Nat.succ.inj h⟩
    · cases h

/-! ### Characters of two, three and four bytes -/

section

variable {v : Nat} (rest : List UInt8)

private theorem readChar_two (h : 0x80 ≤ v) (h' : v ≤ 0x7FF) :
    utf8.readChar (.ofNat (v / 64 % 32 + 192)) (.ofNat (v % 64 + 128) :: rest) = (some (Char.ofNat v), 1) := by
  have hb : (UInt8.ofNat (v / 64 % 32 + 192)).toNat = v / 64 + 192 := by
    rw [toNat_ofNat (by omega)]
    omega
  have hd : (UInt8.ofNat (v % 64 + 128)).toNat = v % 64 + 128 := toNat_ofNat (by omega)
  have hfollowing : following? (v / 64 + 192) = some ((0x80, 0xBF), 1) := by
    rw [following?, if_neg (by omega), if_pos (by omega)]
  have hgoing : goingOn (0x80, 0xBF) 1 (.ofNat (v % 64 + 128) :: rest) = 1 := by
    rw [goingOn, hd, if_pos (by dsimp only; omega), goingOn]
    exact fun _ _ _ h => by cases h
  have hcode : codePoint (v / 64 + 192) [.ofNat (v % 64 + 128)] = v := by
    show 64 * ((v / 64 + 192) % 32) + (UInt8.ofNat (v % 64 + 128)).toNat % 64 = v
    rw [hd]
    omega
  rw [readChar, hb, if_neg (by omega)]
  dsimp only
  rw [hfollowing]
  dsimp only
  rw [hgoing, if_pos rfl, List.take_succ_cons, List.take_zero, hcode]

private theorem readChar_three (h : 0x800 ≤ v) (h' : v ≤ 0xFFFF) (hv : v.isValidChar) :
    utf8.readChar (.ofNat (v / 4096 % 16 + 224))
      (.ofNat (v / 64 % 64 + 128) :: .ofNat (v % 64 + 128) :: rest) = (some (Char.ofNat v), 2) := by
  have hb : (UInt8.ofNat (v / 4096 % 16 + 224)).toNat = v / 4096 + 224 := by
    rw [toNat_ofNat (by omega)]
    omega
  have hd : (UInt8.ofNat (v / 64 % 64 + 128)).toNat = v / 64 % 64 + 128 := toNat_ofNat (by omega)
  have hd' : (UInt8.ofNat (v % 64 + 128)).toNat = v % 64 + 128 := toNat_ofNat (by omega)
  obtain ⟨range, hfollowing, hrange⟩ : ∃ range, following? (v / 4096 + 224) = some (range, 2) ∧
      range.1 ≤ v / 64 % 64 + 128 ∧ v / 64 % 64 + 128 ≤ range.2 := by
    unfold following?
    split_ifs <;> first | omega | exact ⟨_, rfl, by dsimp only; omega, by dsimp only; omega⟩
  have hgoing : goingOn range 2 (.ofNat (v / 64 % 64 + 128) :: .ofNat (v % 64 + 128) :: rest) = 2 := by
    rw [goingOn, hd, if_pos hrange, goingOn, hd', if_pos (by dsimp only; omega), goingOn]
    exact fun _ _ _ h => by cases h
  have hcode : codePoint (v / 4096 + 224) [.ofNat (v / 64 % 64 + 128), .ofNat (v % 64 + 128)] = v := by
    show 64 * (64 * ((v / 4096 + 224) % 16) + (UInt8.ofNat (v / 64 % 64 + 128)).toNat % 64) +
      (UInt8.ofNat (v % 64 + 128)).toNat % 64 = v
    rw [hd, hd']
    omega
  rw [readChar, hb, if_neg (by omega)]
  dsimp only
  rw [hfollowing]
  dsimp only
  rw [hgoing, if_pos rfl, List.take_succ_cons, List.take_succ_cons, List.take_zero, hcode]

private theorem readChar_four (h : 0x10000 ≤ v) (hv : v.isValidChar) :
    utf8.readChar (.ofNat (v / 262144 % 8 + 240))
      (.ofNat (v / 4096 % 64 + 128) :: .ofNat (v / 64 % 64 + 128) :: .ofNat (v % 64 + 128) :: rest) =
        (some (Char.ofNat v), 3) := by
  have hv : v < 1114112 := by
    rcases hv with hv | hv <;> omega
  have hb : (UInt8.ofNat (v / 262144 % 8 + 240)).toNat = v / 262144 + 240 := by
    rw [toNat_ofNat (by omega)]
    omega
  have hd : (UInt8.ofNat (v / 4096 % 64 + 128)).toNat = v / 4096 % 64 + 128 := toNat_ofNat (by omega)
  have hd' : (UInt8.ofNat (v / 64 % 64 + 128)).toNat = v / 64 % 64 + 128 := toNat_ofNat (by omega)
  have hd'' : (UInt8.ofNat (v % 64 + 128)).toNat = v % 64 + 128 := toNat_ofNat (by omega)
  obtain ⟨range, hfollowing, hrange⟩ : ∃ range, following? (v / 262144 + 240) = some (range, 3) ∧
      range.1 ≤ v / 4096 % 64 + 128 ∧ v / 4096 % 64 + 128 ≤ range.2 := by
    unfold following?
    split_ifs <;> first | omega | exact ⟨_, rfl, by dsimp only; omega, by dsimp only; omega⟩
  have hgoing : goingOn range 3 (.ofNat (v / 4096 % 64 + 128) :: .ofNat (v / 64 % 64 + 128) ::
      .ofNat (v % 64 + 128) :: rest) = 3 := by
    rw [goingOn, hd, if_pos hrange, goingOn, hd', if_pos (by dsimp only; omega), goingOn, hd'',
      if_pos (by dsimp only; omega), goingOn]
    exact fun _ _ _ h => by cases h
  have hcode : codePoint (v / 262144 + 240)
      [.ofNat (v / 4096 % 64 + 128), .ofNat (v / 64 % 64 + 128), .ofNat (v % 64 + 128)] = v := by
    show 64 * (64 * (64 * ((v / 262144 + 240) % 8) + (UInt8.ofNat (v / 4096 % 64 + 128)).toNat % 64) +
      (UInt8.ofNat (v / 64 % 64 + 128)).toNat % 64) + (UInt8.ofNat (v % 64 + 128)).toNat % 64 = v
    rw [hd, hd', hd'']
    omega
  rw [readChar, hb, if_neg (by omega)]
  dsimp only
  rw [hfollowing]
  dsimp only
  rw [hgoing, if_pos rfl, List.take_succ_cons, List.take_succ_cons, List.take_succ_cons, List.take_zero, hcode]

end

/-! ### One character -/

/-- A character is read from its bytes, whatever comes after them. -/
private theorem readChar_bytes {e : Encoding} {c : Char} {bytes : List UInt8} (h : e.bytesOf? c = some bytes) :
    ∃ b own, bytes = b :: own ∧ ∀ rest, e.readChar b (own ++ rest) = (some c, own.length) := by
  have hone (b : UInt8) (hb : b.toNat = c.toNat) (hsmall : c.toNat < 0x80) (rest : List UInt8) :
      e.readChar b rest = (some c, 0) := by
    unfold readChar
    rw [hb, if_pos hsmall, Char.ofNat_toNat]
  cases e with
  | ascii =>
    rw [bytesOf?] at h
    split at h
    · rename_i hsmall
      cases h
      exact ⟨_, [], rfl, hone _ (toNat_ofNat (by omega)) hsmall⟩
    · cases h
  | latin1 =>
    rw [bytesOf?] at h
    split at h
    · rename_i hsmall
      cases h
      refine ⟨_, [], rfl, fun rest => ?_⟩
      have hb := toNat_ofNat hsmall
      rw [readChar, hb, Char.ofNat_toNat]
      split <;> rfl
    · cases h
  | utf8 =>
    cases h
    have hvalid : c.toNat.isValidChar := c.valid
    unfold String.utf8EncodeChar
    dsimp only
    rw [Char.toNat_val]
    split_ifs with h₁ h₂ h₃
    · exact ⟨_, [], rfl, hone _ (toNat_ofNat (by omega)) (by omega)⟩
    · refine ⟨_, _, rfl, fun rest => ?_⟩
      exact (readChar_two rest (by omega) h₂).trans (by rw [Char.ofNat_toNat]; rfl)
    · refine ⟨_, _, rfl, fun rest => ?_⟩
      exact (readChar_three rest (by omega) h₃ hvalid).trans (by rw [Char.ofNat_toNat]; rfl)
    · refine ⟨_, _, rfl, fun rest => ?_⟩
      exact (readChar_four rest (by omega) hvalid).trans (by rw [Char.ofNat_toNat]; rfl)

section

variable {b d d' d'' : UInt8}

private theorem bytes_one (h : b.toNat < 0x80) : String.utf8EncodeChar (.ofNat b.toNat) = [b] := by
  have hv : (Char.ofNat b.toNat).val.toNat = b.toNat := toNat_char (.inl (by omega))
  unfold String.utf8EncodeChar
  rw [hv, if_pos (by omega), UInt8.ofNat_toNat]

private theorem bytes_two (hb : 0xC2 ≤ b.toNat ∧ b.toNat < 0xE0) (hd : 0x80 ≤ d.toNat ∧ d.toNat ≤ 0xBF) :
    String.utf8EncodeChar (.ofNat (codePoint b.toNat [d])) = [b, d] := by
  obtain ⟨v, hv⟩ : ∃ v, v = 64 * (b.toNat % 32) + d.toNat % 64 := ⟨_, rfl⟩
  have hcode : codePoint b.toNat [d] = v := hv.symm
  have hchar : (Char.ofNat v).val.toNat = v := toNat_char (.inl (by omega))
  rw [hcode]
  unfold String.utf8EncodeChar
  rw [hchar, if_neg (by omega), if_pos (by omega), ofNat_eq (b := b) (by omega), ofNat_eq (b := d) (by omega)]

private theorem bytes_three (hb : 0xE0 ≤ b.toNat ∧ b.toNat < 0xF0)
    (hd : (if b.toNat = 0xE0 then 0xA0 else 0x80) ≤ d.toNat ∧ d.toNat ≤ if b.toNat = 0xED then 0x9F else 0xBF)
    (hd' : 0x80 ≤ d'.toNat ∧ d'.toNat ≤ 0xBF) :
    String.utf8EncodeChar (.ofNat (codePoint b.toNat [d, d'])) = [b, d, d'] := by
  obtain ⟨v, hv⟩ : ∃ v, v = 64 * (64 * (b.toNat % 16) + d.toNat % 64) + d'.toNat % 64 := ⟨_, rfl⟩
  have hcode : codePoint b.toNat [d, d'] = v := hv.symm
  have hchar : (Char.ofNat v).val.toNat = v := by
    refine toNat_char ?_
    unfold Nat.isValidChar
    split_ifs at hd <;> omega
  have hlow : 0x800 ≤ v := by
    split_ifs at hd <;> omega
  have hrange : 0x80 ≤ d.toNat ∧ d.toNat ≤ 0xBF := by
    split_ifs at hd <;> omega
  rw [hcode]
  unfold String.utf8EncodeChar
  rw [hchar, if_neg (by omega), if_neg (by omega), if_pos (by omega), ofNat_eq (b := b) (by omega),
    ofNat_eq (b := d) (by omega), ofNat_eq (b := d') (by omega)]

private theorem bytes_four (hb : 0xF0 ≤ b.toNat ∧ b.toNat ≤ 0xF4)
    (hd : (if b.toNat = 0xF0 then 0x90 else 0x80) ≤ d.toNat ∧ d.toNat ≤ if b.toNat = 0xF4 then 0x8F else 0xBF)
    (hd' : 0x80 ≤ d'.toNat ∧ d'.toNat ≤ 0xBF) (hd'' : 0x80 ≤ d''.toNat ∧ d''.toNat ≤ 0xBF) :
    String.utf8EncodeChar (.ofNat (codePoint b.toNat [d, d', d''])) = [b, d, d', d''] := by
  obtain ⟨v, hv⟩ : ∃ v, v = 64 * (64 * (64 * (b.toNat % 8) + d.toNat % 64) + d'.toNat % 64) + d''.toNat % 64 :=
    ⟨_, rfl⟩
  have hcode : codePoint b.toNat [d, d', d''] = v := hv.symm
  have hrange : 0x80 ≤ d.toNat ∧ d.toNat ≤ 0xBF := by
    split_ifs at hd <;> omega
  have hlow : 0x10000 ≤ v ∧ v < 0x110000 := by
    split_ifs at hd <;> omega
  have hchar : (Char.ofNat v).val.toNat = v := toNat_char (.inr (by omega))
  rw [hcode]
  unfold String.utf8EncodeChar
  rw [hchar, if_neg (by omega), if_neg (by omega), if_neg (by omega), ofNat_eq (b := b) (by omega),
    ofNat_eq (b := d) (by omega), ofNat_eq (b := d') (by omega), ofNat_eq (b := d'') (by omega)]

end

/-- What is read as a character are its bytes. -/
private theorem bytes_of_readChar {e : Encoding} {b : UInt8} {bs : List UInt8} {c : Char} {more : Nat}
    (h : e.readChar b bs = (some c, more)) : ∃ own rest, bs = own ++ rest ∧ own.length = more ∧
      e.bytesOf? c = some (b :: own) := by
  unfold readChar at h
  split at h
  · rename_i hsmall
    cases h
    have hchar : (Char.ofNat b.toNat).toNat = b.toNat := toNat_char (.inl (by omega))
    refine ⟨[], bs, rfl, rfl, ?_⟩
    cases e with
    | utf8 => exact congrArg some (bytes_one hsmall)
    | latin1 => rw [bytesOf?, hchar, if_pos (by omega), UInt8.ofNat_toNat]
    | ascii => rw [bytesOf?, hchar, if_pos hsmall, UInt8.ofNat_toNat]
  · cases e with
    | ascii => cases h
    | latin1 =>
      cases h
      have hbyte := b.toNat_lt
      have hchar : (Char.ofNat b.toNat).toNat = b.toNat := toNat_char (.inl (by omega))
      exact ⟨[], bs, rfl, rfl, by rw [bytesOf?, hchar, if_pos hbyte, UInt8.ofNat_toNat]⟩
    | utf8 =>
      dsimp only at h
      split at h
      · cases h
      · rename_i range size hfollowing
        split at h
        · rename_i hgoing
          cases h
          rcases following?_cases hfollowing with ⟨rfl, hb, hb', rfl⟩ | ⟨rfl, hb, hb', rfl⟩ | ⟨rfl, hb, hb', rfl⟩
          · obtain ⟨d, rest, rfl, hd, hd', -⟩ := goingOn_succ hgoing
            exact ⟨[d], rest, rfl, rfl, congrArg some (bytes_two ⟨hb, hb'⟩ ⟨hd, hd'⟩)⟩
          · obtain ⟨d, rest, rfl, hd, hd', hgoing⟩ := goingOn_succ hgoing
            obtain ⟨d₂, rest, rfl, hd₂, hd₂', -⟩ := goingOn_succ hgoing
            exact ⟨[d, d₂], rest, rfl, rfl, congrArg some (bytes_three ⟨hb, hb'⟩ ⟨hd, hd'⟩ ⟨hd₂, hd₂'⟩)⟩
          · obtain ⟨d, rest, rfl, hd, hd', hgoing⟩ := goingOn_succ hgoing
            obtain ⟨d₂, rest, rfl, hd₂, hd₂', hgoing⟩ := goingOn_succ hgoing
            obtain ⟨d₃, rest, rfl, hd₃, hd₃', -⟩ := goingOn_succ hgoing
            exact ⟨[d, d₂, d₃], rest, rfl, rfl,
              congrArg some (bytes_four ⟨hb, hb'⟩ ⟨hd, hd'⟩ ⟨hd₂, hd₂'⟩ ⟨hd₃, hd₃'⟩)⟩
        · cases h

/-! ### Rows of characters -/

private theorem decodeFrom_encode? {e : Encoding} {cs : List Char} {bs : List UInt8} (h : e.encode? cs = some bs)
    (offset : Nat) : e.decodeFrom offset bs = .ok cs := by
  induction cs generalizing bs offset with
  | nil =>
    cases h
    rw [decodeFrom]
  | cons c cs ih =>
    rw [encode?] at h
    obtain ⟨bytes, hbytes, h⟩ := Option.bind_eq_some_iff.1 h
    obtain ⟨rest, hrest, h⟩ := Option.bind_eq_some_iff.1 h
    cases h
    obtain ⟨b, own, rfl, hread⟩ := readChar_bytes hbytes
    rw [List.cons_append, decodeFrom, hread rest]
    dsimp only
    rw [List.drop_left, ih hrest]
    rfl

private theorem encode?_decodeFrom {e : Encoding} {cs : List Char} {bs : List UInt8} {offset : Nat}
    (h : e.decodeFrom offset bs = .ok cs) : e.encode? cs = some bs := by
  induction cs generalizing bs offset with
  | nil =>
    cases bs with
    | nil => rfl
    | cons b bs =>
      rw [decodeFrom] at h
      split at h
      · cases h
      · rename_i c more hread
        cases hrest : e.decodeFrom (offset + more + 1) (bs.drop more) <;> rw [hrest] at h <;> cases h
  | cons c cs ih =>
    cases bs with
    | nil =>
      rw [decodeFrom] at h
      cases h
    | cons b bs =>
      rw [decodeFrom] at h
      split at h
      · cases h
      · rename_i c' more hread
        obtain ⟨own, rest, rfl, rfl, hbytes⟩ := bytes_of_readChar hread
        rw [List.drop_left] at h
        cases hrest : e.decodeFrom (offset + own.length + 1) rest with
        | error fault =>
          rw [hrest] at h
          cases h
        | ok cs' =>
          rw [hrest] at h
          cases h
          rw [encode?, hbytes, ih hrest]
          rfl

/-- Bytes are decoded to the characters that they are the bytes of. -/
theorem decode_eq_ok_iff {e : Encoding} {cs : List Char} {bs : List UInt8} :
    e.decode bs = .ok cs ↔ e.encode? cs = some bs :=
  ⟨encode?_decodeFrom, fun h => decodeFrom_encode? h 0⟩

end MarkdownTree.Text.Encoding
