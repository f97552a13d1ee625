import Mathlib
import MarkdownTree.Value.Json

/-!
# JSON read back

What is written of a value is read back as that value.  A text is read back character by character, whatever follows
its closing quote (`decodeText_encode`), and an integer wherever something follows that no number goes on with
(`number?_int`).  So it is for every value that is plain, by induction on what it is made of (`decode_encode`), and for
whole texts on one line or indented by spaces (`read?_write`).
-/

namespace MarkdownTree.Value

/-- Values without fractions, in which all maps have texts as keys and none of them twice. -/
inductive Plain : Value → Prop
  | null : Plain .null
  | bool (b : Bool) : Plain (.bool b)
  | int (n : Int) : Plain (.int n)
  | text (s : String) : Plain (.text s)
  | list {items : List Value} (h : ∀ v ∈ items, Plain v) : Plain (.list items)
  | record {entries : List (String × Value)} (hkeys : (entries.map (·.1)).Nodup) (h : ∀ e ∈ entries, Plain e.2) :
    Plain (.record entries)

/-- The entries of a map whose keys are texts. -/
def textEntries (entries : List (String × Value)) : List (Value × Value) :=
  entries.map fun (k, v) => (.text k, v)

namespace Json

/-! ### Texts -/

private theorem hex4?_hexDigits {n : Nat} (h : n < 0x20) (rest : List Char) :
    hex4? (Text.hexDigits 4 n ++ rest) = some (n, rest) := by
  have hdigits : ∀ n < 0x20, (Text.hexDigits 4 n).map hexValue? = [some 0, some 0, some (n / 16), some (n % 16)] := by
    decide
  obtain ⟨a, b, c, d, heq⟩ : ∃ a b c d, Text.hexDigits 4 n = [a, b, c, d] := ⟨_, _, _, _, rfl⟩
  have hvalues := hdigits n h
  rw [heq] at hvalues ⊢
  simp only [List.map_cons, List.map_nil, List.cons.injEq, and_true] at hvalues
  obtain ⟨ha, hb, hc, hd⟩ := hvalues
  simp only [List.cons_append, List.nil_append, hex4?, ha, hb, hc, hd, Option.bind_eq_bind, Option.bind_some,
    Option.pure_def, Option.some.injEq, Prod.mk.injEq, and_true]
  omega

private theorem unit?_hexDigits {c : Char} (h : c.toNat < 0x20) (rest : List Char) :
    unit? (Text.hexDigits 4 c.toNat ++ rest) = some (c, rest) := by
  have hlow : ¬(0xD800 ≤ c.toNat ∧ c.toNat < 0xDC00) := by omega
  have hhigh : ¬(0xDC00 ≤ c.toNat ∧ c.toNat < 0xE000) := by omega
  simp only [unit?, hex4?_hexDigits h, Option.bind_eq_bind, Option.bind_some, if_neg hlow, if_neg hhigh,
    Char.ofNat_toNat, Option.pure_def]

/-- A character of a text is read back, however it is written. -/
private theorem decodeText_encodeChar (fuel : Nat) (c : Char) (rest : List Char) :
    decodeText (fuel + 1) (encodeChar c ++ rest) = (decodeText fuel rest).map fun (cs, after) => (c :: cs, after) := by
  unfold encodeChar
  split_ifs with hquote hslash hn hr ht hb hf hcontrol
  · subst hquote
    rfl
  · subst hslash
    rfl
  · subst hn
    rfl
  · subst hr
    rfl
  · subst ht
    rfl
  · subst hb
    rfl
  · subst hf
    rfl
  · simp only [List.cons_append, decodeText, unit?_hexDigits hcontrol]
    rfl
  · rw [List.singleton_append, decodeText, if_neg (not_or.2 ⟨hcontrol, hslash⟩)]
    · exact hquote
    · exact fun e after hc => absurd hc hslash

theorem decodeText_encode (cs rest : List Char) {fuel : Nat} (h : cs.length < fuel) :
    decodeText fuel (cs.flatMap encodeChar ++ '"' :: rest) = some (cs, rest) := by
  induction cs generalizing fuel with
  | nil =>
    cases fuel with
    | zero => cases h
    | succ fuel => rfl
  | cons c cs ih =>
    cases fuel with
    | zero => cases h
    | succ fuel =>
      rw [List.flatMap_cons, List.append_assoc, decodeText_encodeChar, ih (Nat.lt_of_succ_lt_succ h)]
      rfl

/-! ### Numbers -/

/-- What may follow an item of a row: the rest of the row, on the same line or on the next one. -/
def Delimits (rest : List Char) : Prop :=
  ∀ c ∈ rest.head?, c = ',' ∨ c = ']' ∨ c = '\x7d' ∨ c = '\n'

private theorem delimits_cons {c : Char} (hc : c = ',' ∨ c = ']' ∨ c = '\x7d' ∨ c = '\n') (rest : List Char) :
    Delimits (c :: rest) := by
  rintro d ⟨⟩
  exact hc

private theorem head?_toDigits {n : Nat} (h : 0 < n) : (Nat.toDigits 10 n).head? ≠ some '0' := by
  induction n using Nat.strongRecOn with
  | ind n ih =>
    by_cases hlt : n < 10
    · have hdigits : ∀ n < 10, 0 < n → [n.digitChar].head? ≠ some '0' := by decide
      rw [Nat.toDigits_of_lt_base hlt]
      exact hdigits n hlt h
    · rw [Nat.toDigits_of_base_le (by decide) (Nat.le_of_not_lt hlt),
        List.head?_append_of_ne_nil _ Nat.toDigits_ne_nil]
      exact ih (n / 10) (by omega) (by omega)

/-- The digits of a number are read to the last, and none beyond them. -/
private theorem digits_toDigits (n : Nat) {rest : List Char} (hrest : Delimits rest) :
    (if (Nat.toDigits 10 n ++ rest).head? == some '0' then ['0'] else (Nat.toDigits 10 n ++ rest).takeWhile Char.isDigit)
      = Nat.toDigits 10 n := by
  have hhead : (Nat.toDigits 10 n ++ rest).head? = (Nat.toDigits 10 n).head? :=
    List.head?_append_of_ne_nil _ Nat.toDigits_ne_nil
  rw [hhead]
  rcases Nat.eq_zero_or_pos n with rfl | hpos
  · rfl
  · have hstop : rest.takeWhile Char.isDigit = [] := by
      cases rest with
      | nil => rfl
      | cons c rest =>
        rcases hrest c rfl with rfl | rfl | rfl | rfl <;> rfl
    have hdigits : ∀ d ∈ Nat.toDigits 10 n, d.isDigit = true :=
      fun d hd => Nat.isDigit_of_mem_toDigits (by decide) (by decide) hd
    rw [if_neg (by simpa using head?_toDigits hpos), List.takeWhile_append_of_pos hdigits, hstop, List.append_nil]

private theorem exponent?_delimits {rest : List Char} (hrest : Delimits rest) : exponent? rest = none := by
  cases rest with
  | nil => rfl
  | cons c rest => rcases hrest c rfl with rfl | rfl | rfl | rfl <;> rfl

theorem toList_ofNat (n : Nat) : (toString (Int.ofNat n)).toList = Nat.toDigits 10 n :=
  Nat.toList_repr

theorem toList_negSucc (n : Nat) : (toString (Int.negSucc n)).toList = '-' :: Nat.toDigits 10 (n + 1) := by
  show ("-" ++ (n + 1).repr).toList = _
  rw [String.toList_append, Nat.toList_repr]
  rfl

/-- An integer is read back wherever it is delimited. -/
theorem number?_int (n : Int) {rest : List Char} (hrest : Delimits rest) :
    number? ((toString n).toList ++ rest) = some (.int n, rest) := by
  have hpoint : (rest.head? == some '.') = false := by
    cases rest with
    | nil => rfl
    | cons c rest => rcases hrest c rfl with rfl | rfl | rfl | rfl <;> rfl
  have hread (k : Nat) : (String.ofList (Nat.toDigits 10 k)).toNat?.getD 0 = k := by
    rw [← Nat.repr_eq_ofList_toDigits, Nat.toNat?_repr]
    rfl
  have hne (k : Nat) : (Nat.toDigits 10 k).isEmpty = false := by
    rw [List.isEmpty_eq_false_iff]
    exact Nat.toDigits_ne_nil
  have hsign (k : Nat) : ((Nat.toDigits 10 k ++ rest).head? == some '-') = false := by
    rw [List.head?_append_of_ne_nil _ Nat.toDigits_ne_nil]
    cases hhead : (Nat.toDigits 10 k).head? with
    | none => rfl
    | some d =>
      have hd := Nat.isDigit_of_mem_toDigits (by decide) (by decide) (List.mem_of_head? hhead)
      refine beq_false_of_ne fun heq => ?_
      cases heq
      cases hd
  cases n with
  | ofNat k =>
    rw [toList_ofNat, number?]
    simp only [hsign, digits_toDigits k hrest, hne, List.drop_left, hpoint, exponent?_delimits hrest, hread,
      Bool.false_eq_true, if_false, List.isEmpty_nil, Option.isNone_none, Bool.and_self, if_true]
    rfl
  | negSucc k =>
    rw [toList_negSucc, number?]
    simp only [List.cons_append, List.head?_cons, BEq.rfl, if_true, List.drop_succ_cons, List.drop_zero,
      digits_toDigits (k + 1) hrest, hne, List.drop_left, hpoint, exponent?_delimits hrest, hread,
      Bool.false_eq_true, if_false, List.isEmpty_nil, Option.isNone_none, Bool.and_self]
    rfl

/-! ### Blanks -/

/-- A layout that sets items out with blanks only. -/
def Layout.Blank (layout : Layout) : Prop :=
  ∀ unit ∈ layout.unit, ∀ c ∈ unit, isSpace c = true

theorem Layout.blank_line : Layout.line.Blank := by
  simp [Blank, line]

theorem Layout.blank_spaced (width : Nat) : (spaced width).Blank := by
  rintro unit ⟨⟩ c hc
  rw [List.eq_of_mem_replicate hc]
  rfl

private theorem Layout.Blank.lead {layout : Layout} (h : layout.Blank) (level : Nat) :
    ∀ c ∈ layout.lead level, isSpace c = true := by
  unfold Layout.lead
  split
  · simp
  · rename_i unit hunit
    refine List.forall_mem_cons.2 ⟨rfl, fun c hc => ?_⟩
    obtain ⟨cs, hcs, hc⟩ := List.mem_flatten.1 hc
    rw [List.eq_of_mem_replicate hcs] at hc
    exact h unit hunit c hc

/-- A comma stands between two items, with blanks behind it. -/
private theorem Layout.Blank.between {layout : Layout} (h : layout.Blank) (level : Nat) :
    ∃ gap, layout.between level = ',' :: gap ∧ gap ≠ [] ∧ ∀ c ∈ gap, isSpace c = true := by
  have hlead := h.lead level
  unfold Layout.between
  unfold Layout.lead at hlead ⊢
  revert hlead
  cases layout.unit with
  | none => exact fun _ => ⟨[' '], rfl, List.cons_ne_nil _ _, by simp [isSpace]⟩
  | some unit => exact fun hlead => ⟨_, rfl, List.cons_ne_nil _ _, hlead⟩

private theorem delimits_lead (layout : Layout) (level : Nat) {rest : List Char} (hrest : Delimits rest) :
    Delimits (layout.lead level ++ rest) := by
  unfold Layout.lead
  split
  · exact hrest
  · exact delimits_cons (.inr (.inr (.inr rfl))) _

private theorem dropWhile_blank {ws : List Char} (hws : ∀ c ∈ ws, isSpace c = true) (cs : List Char) :
    (ws ++ cs).dropWhile isSpace = cs.dropWhile isSpace := by
  rw [List.dropWhile_append_of_pos hws]

private theorem decode_blank (fuel : Nat) {ws : List Char} (hws : ∀ c ∈ ws, isSpace c = true) (cs : List Char) :
    decode fuel (ws ++ cs) = decode fuel cs := by
  cases fuel with
  | zero => rw [decode, decode]
  | succ fuel => rw [decode, decode, dropWhile_blank hws]

private theorem decodeItems_blank (fuel : Nat) {ws : List Char} (hws : ∀ c ∈ ws, isSpace c = true) (cs : List Char) :
    decodeItems fuel (ws ++ cs) = decodeItems fuel cs := by
  cases fuel with
  | zero => rw [decodeItems, decodeItems]
  | succ fuel => rw [decodeItems, decodeItems, decode_blank fuel hws]

private theorem decodeEntries_blank (fuel : Nat) {ws : List Char} (hws : ∀ c ∈ ws, isSpace c = true) (cs : List Char) :
    decodeEntries fuel (ws ++ cs) = decodeEntries fuel cs := by
  cases fuel with
  | zero => rw [decodeEntries, decodeEntries]
  | succ fuel => rw [decodeEntries, decodeEntries, dropWhile_blank hws]

/-! ### Values -/

/-- An integer is written as digits, with a sign before them if it is negative. -/
private theorem exists_toString_eq (n : Int) : ∃ d ds, d.isDigit = true ∧
    ((toString n).toList = d :: ds ∨ (toString n).toList = '-' :: d :: ds) := by
  have hdigits (k : Nat) : ∃ d ds, d.isDigit = true ∧ Nat.toDigits 10 k = d :: ds := by
    obtain ⟨d, ds, hcons⟩ := List.exists_cons_of_ne_nil (Nat.toDigits_ne_nil (n := k) (b := 10))
    refine ⟨d, ds, Nat.isDigit_of_mem_toDigits (b := 10) (n := k) (by decide) (by decide) ?_, hcons⟩
    rw [hcons]
    exact .head _
  cases n with
  | ofNat k =>
    obtain ⟨d, ds, hd, hcons⟩ := hdigits k
    exact ⟨d, ds, hd, .inl (toList_ofNat k ▸ hcons)⟩
  | negSucc k =>
    obtain ⟨d, ds, hd, hcons⟩ := hdigits (k + 1)
    exact ⟨d, ds, hd, .inr (by rw [toList_negSucc, hcons])⟩

private theorem isSpace_of_isDigit {c : Char} (h : c.isDigit = true) : isSpace c = false := by
  refine Bool.eq_false_iff.2 fun hspace => ?_
  simp only [isSpace, Bool.or_eq_true, beq_iff_eq] at hspace
  rcases hspace with ((rfl | rfl) | rfl) | rfl <;> cases h

private theorem decode_int (fuel : Nat) (n : Int) {rest : List Char} (hrest : Delimits rest) :
    decode (fuel + 1) ((toString n).toList ++ rest) = some (.int n, rest) := by
  rw [← number?_int n hrest]
  obtain ⟨d, ds, hd, h | h⟩ := exists_toString_eq n <;> rw [h, decode]
  · rw [List.cons_append, List.dropWhile_cons_of_neg (by rw [isSpace_of_isDigit hd]; decide)]
    -- Nothing that is read but a number starts with a digit.
    split
    all_goals first
      | rfl
      | rename_i heq
        have hhead := (List.cons.inj heq).1
        subst hhead
        cases hd
  · rw [List.cons_append, List.cons_append, List.dropWhile_cons_of_neg (by decide)]
    split
    all_goals first
      | rfl
      | rename_i heq
        have hhead := (List.cons.inj (List.cons.inj heq).2).1
        subst hhead
        cases hd
      | rename_i heq
        cases (List.cons.inj heq).1

/-- What starts the text of a value. -/
private theorem exists_encode_eq (layout : Layout) (level : Nat) {v : Value} (h : v.Plain) :
    ∃ c cs, encode layout level v = c :: cs ∧ isSpace c = false ∧ c ≠ ']' ∧ c ≠ '\x7d' := by
  cases h with
  | null => exact ⟨'n', _, rfl, by decide⟩
  | bool b => cases b <;> exact ⟨_, _, rfl, by decide⟩
  | int n =>
    obtain ⟨d, ds, hd, hdigits | hsigned⟩ := exists_toString_eq n
    · refine ⟨d, ds, hdigits, isSpace_of_isDigit hd, ?_, ?_⟩ <;>
        (rintro rfl
         cases hd)
    · exact ⟨'-', d :: ds, hsigned, by decide⟩
  | text s => exact ⟨'"', _, rfl, by decide⟩
  | @list items =>
    cases items with
    | nil => exact ⟨'[', _, rfl, by decide⟩
    | cons item items => exact ⟨'[', _, rfl, by decide⟩
  | @record entries =>
    cases entries with
    | nil => exact ⟨'\x7b', _, rfl, by decide⟩
    | cons entry entries => exact ⟨'\x7b', _, rfl, by decide⟩

/-- What is written of a value is read back, wherever it is delimited. -/
def ReadsBack (layout : Layout) (v : Value) : Prop :=
  ∀ level fuel rest, (encode layout level v).length ≤ fuel → Delimits rest →
    decode fuel (encode layout level v ++ rest) = some (v, rest)

private theorem decodeItems_comma {fuel : Nat} {cs rest more : List Char} {item : Value}
    (hitem : decode fuel cs = some (item, rest))
    (hcomma : rest.dropWhile isSpace = ',' :: more) :
    decodeItems (fuel + 1) cs = (decodeItems fuel more).map fun (items, after) => (item :: items, after) := by
  rw [decodeItems, hitem]
  simp only [Option.bind_eq_bind, Option.bind_some, hcomma]
  cases decodeItems fuel more <;> rfl

private theorem decodeItems_close {fuel : Nat} {cs rest after : List Char} {item : Value}
    (hitem : decode fuel cs = some (item, rest))
    (hclose : rest.dropWhile isSpace = ']' :: after) : decodeItems (fuel + 1) cs = some ([item], after) := by
  rw [decodeItems, hitem]
  simp only [Option.bind_eq_bind, Option.bind_some, hclose]
  rfl

private theorem decodeItems_encode {layout : Layout} (hlayout : layout.Blank) {item : Value} {items : List Value}
    (h : ∀ v ∈ item :: items, ReadsBack layout v) (level : Nat) {ws : List Char} (hws : ∀ c ∈ ws, isSpace c = true)
    (hdelimits : ∀ rest, Delimits (ws ++ ']' :: rest)) (rest : List Char) {fuel : Nat}
    (hfuel : (encode layout level item).length + (encodeItems layout level items).length < fuel) :
    decodeItems fuel (encode layout level item ++ (encodeItems layout level items ++ (ws ++ ']' :: rest))) =
      some (item :: items, rest) := by
  obtain ⟨fuel, rfl⟩ := Nat.exists_eq_succ_of_ne_zero (Nat.ne_zero_of_lt hfuel)
  induction items generalizing item fuel with
  | nil =>
    have hitem := h item (.head _) level fuel (ws ++ ']' :: rest) (by omega) (hdelimits rest)
    refine decodeItems_close hitem ?_
    rw [dropWhile_blank hws]
    rfl
  | cons next items ih =>
    obtain ⟨gap, hbetween, hne, hgap⟩ := hlayout.between level
    have hlen := List.length_pos_of_ne_nil hne
    simp only [encodeItems, hbetween, List.length_append, List.length_cons, List.cons_append, List.append_assoc]
      at hfuel ⊢
    obtain ⟨fuel, rfl⟩ := Nat.exists_eq_succ_of_ne_zero (show fuel ≠ 0 by omega)
    have hrest := ih (fun v hv => h v (.tail _ hv)) fuel (by omega)
    rw [decodeItems_comma (h item (.head _) level (fuel + 1) _ (by omega) (delimits_cons (.inl rfl) _)) rfl,
      decodeItems_blank (fuel + 1) hgap, hrest]
    rfl

/-- A key is read back, up to its colon. -/
private theorem dropWhile_encodeText (key : String) (cs : List Char) :
    (encodeText key ++ cs).dropWhile isSpace = '"' :: (key.toList.flatMap encodeChar ++ '"' :: cs) := by
  rw [encodeText, List.cons_append, List.cons_append, List.dropWhile_cons_of_neg (by decide), List.append_assoc]
  rfl

private theorem decodeEntries_comma (key : String) {fuel : Nat} (hfuel : key.toList.length ≤ fuel)
    {cs rest more : List Char}
    {v : Value} (hvalue : decode fuel cs = some (v, rest)) (hcomma : rest.dropWhile isSpace = ',' :: more) :
    decodeEntries (fuel + 1) (encodeText key ++ ':' :: ' ' :: cs) =
      (decodeEntries fuel more).map fun (entries, after) => ((.text key, v) :: entries, after) := by
  have hkey := decodeText_encode key.toList (':' :: ' ' :: cs) (Nat.lt_succ_of_le hfuel)
  have hspace : decode fuel (' ' :: cs) = some (v, rest) :=
    (@decode_blank fuel [' '] (by simp [isSpace]) cs).trans hvalue
  have hcolon : (':' :: ' ' :: cs).dropWhile isSpace = ':' :: ' ' :: cs := rfl
  rw [decodeEntries, dropWhile_encodeText]
  simp only [hkey, Option.bind_eq_bind, Option.bind_some, hcolon, hspace, hcomma, String.ofList_toList]
  cases decodeEntries fuel more <;> rfl

private theorem decodeEntries_close (key : String) {fuel : Nat} (hfuel : key.toList.length ≤ fuel)
    {cs rest after : List Char}
    {v : Value} (hvalue : decode fuel cs = some (v, rest)) (hclose : rest.dropWhile isSpace = '\x7d' :: after) :
    decodeEntries (fuel + 1) (encodeText key ++ ':' :: ' ' :: cs) = some ([(.text key, v)], after) := by
  have hkey := decodeText_encode key.toList (':' :: ' ' :: cs) (Nat.lt_succ_of_le hfuel)
  have hspace : decode fuel (' ' :: cs) = some (v, rest) :=
    (@decode_blank fuel [' '] (by simp [isSpace]) cs).trans hvalue
  have hcolon : (':' :: ' ' :: cs).dropWhile isSpace = ':' :: ' ' :: cs := rfl
  rw [decodeEntries, dropWhile_encodeText]
  simp only [hkey, Option.bind_eq_bind, Option.bind_some, hcolon, hspace, hclose, String.ofList_toList]
  rfl

private theorem length_encodeText (key : String) : key.toList.length + 2 ≤ (encodeText key).length := by
  have hchar (c : Char) : 1 ≤ (encodeChar c).length := by
    unfold encodeChar
    split_ifs <;> simp
  have hchars (cs : List Char) : cs.length ≤ (cs.flatMap encodeChar).length := by
    induction cs with
    | nil => exact Nat.zero_le _
    | cons c cs ih =>
      rw [List.flatMap_cons, List.length_append, List.length_cons, Nat.add_comm]
      exact Nat.add_le_add (hchar c) ih
  have hall := hchars key.toList
  simp only [encodeText, List.length_append, List.length_cons, List.length_nil]
  omega

private theorem decodeEntries_encode {layout : Layout} (hlayout : layout.Blank) {key : String} {v : Value}
    {entries : List (String × Value)} (hv : ReadsBack layout v) (h : ∀ e ∈ entries, ReadsBack layout e.2) (level : Nat)
    {ws : List Char} (hws : ∀ c ∈ ws, isSpace c = true) (hdelimits : ∀ rest, Delimits (ws ++ '\x7d' :: rest))
    (rest : List Char) {fuel : Nat} (hfuel : (encodeText key).length + (encode layout level v).length
      + (encodeEntries layout level (textEntries entries)).length < fuel) :
    decodeEntries fuel (encodeText key ++ ':' :: ' ' :: (encode layout level v
      ++ (encodeEntries layout level (textEntries entries) ++ (ws ++ '\x7d' :: rest)))) =
      some (textEntries ((key, v) :: entries), rest) := by
  obtain ⟨fuel, rfl⟩ := Nat.exists_eq_succ_of_ne_zero (Nat.ne_zero_of_lt hfuel)
  have hkey := length_encodeText key
  induction entries generalizing key v fuel with
  | nil =>
    have hvalue := hv level fuel (ws ++ '\x7d' :: rest) (by omega) (hdelimits rest)
    refine decodeEntries_close key (by omega) hvalue ?_
    rw [dropWhile_blank hws]
    rfl
  | cons next entries ih =>
    obtain ⟨nextKey, nextValue⟩ := next
    obtain ⟨gap, hbetween, hne, hgap⟩ := hlayout.between level
    have hlen := List.length_pos_of_ne_nil hne
    simp only [textEntries, List.map_cons, encodeEntries, encodeKey, hbetween, List.length_append, List.length_cons,
      List.cons_append, List.append_assoc] at hfuel ⊢
    obtain ⟨fuel, rfl⟩ := Nat.exists_eq_succ_of_ne_zero (show fuel ≠ 0 by omega)
    have hrest := ih (h (nextKey, nextValue) (.head _)) (fun e he => h e (.tail _ he)) fuel
      (by simp only [textEntries]; omega) (length_encodeText nextKey)
    rw [decodeEntries_comma key (by omega) (hv level (fuel + 1) _ (by omega) (delimits_cons (.inl rfl) _)) rfl,
      decodeEntries_blank (fuel + 1) hgap]
    simp only [textEntries] at hrest
    rw [hrest]
    rfl

/-- Entries whose keys are different texts are all kept, in their order. -/
private theorem ofEntries_textEntries {entries : List (String × Value)} (hkeys : (entries.map (·.1)).Nodup) :
    ofEntries (textEntries entries) = .record entries := by
  have hinsert (key : String) (v : Value) (before : List (String × Value)) (hkey : key ∉ before.map (·.1)) :
      insertEntry (.text key) v (textEntries before) = textEntries (before ++ [(key, v)]) := by
    induction before with
    | nil => rfl
    | cons entry before ih =>
      rw [List.map_cons, List.mem_cons, not_or] at hkey
      have hne : same (.text entry.1) (.text key) = false := by
        rw [same]
        exact beq_false_of_ne (Ne.symm hkey.1)
      have hrest := ih hkey.2
      simp only [textEntries, List.map_cons, List.cons_append, insertEntry, hne, Bool.false_eq_true, if_false]
        at hrest ⊢
      rw [hrest]
  have hall (before : List (String × Value)) (hbefore : ((before ++ entries).map (·.1)).Nodup) :
      (textEntries entries).foldl (fun map entry => insertEntry entry.1 entry.2 map) (textEntries before) =
        textEntries (before ++ entries) := by
    induction entries generalizing before with
    | nil => rw [List.append_nil]; rfl
    | cons entry entries ih =>
      have hentry : entry.1 ∉ before.map (·.1) := by
        rw [List.map_append, List.nodup_append] at hbefore
        exact fun hmem => hbefore.2.2 _ hmem _ (.head _) rfl
      have hcons : before ++ entry :: entries = before ++ [entry] ++ entries := by simp
      rw [hcons] at hbefore ⊢
      rw [← ih (List.nodup_cons.1 hkeys).2 (before ++ [entry]) hbefore, ← hinsert entry.1 entry.2 before hentry]
      rfl
  exact congrArg Value.map (hall [] hkeys)

private theorem decode_list (fuel : Nat) {cs : List Char} (hhead : (cs.dropWhile isSpace).head? ≠ some ']') :
    decode (fuel + 1) ('[' :: cs) = (decodeItems fuel cs).map fun (items, after) => (.list items, after) := by
  have hopen : ('[' :: cs).dropWhile isSpace = '[' :: cs := rfl
  generalize hnext : cs.dropWhile isSpace = next at hhead
  rw [decode, hopen]
  simp only [hnext]
  split
  · exact absurd rfl hhead
  · rfl

private theorem decode_map (fuel : Nat) {cs : List Char} (hhead : (cs.dropWhile isSpace).head? ≠ some '\x7d') :
    decode (fuel + 1) ('\x7b' :: cs) = (decodeEntries fuel cs).map fun (entries, after) => (ofEntries entries, after) := by
  have hopen : ('\x7b' :: cs).dropWhile isSpace = '\x7b' :: cs := rfl
  generalize hnext : cs.dropWhile isSpace = next at hhead
  rw [decode, hopen]
  simp only [hnext]
  split
  · exact absurd rfl hhead
  · rfl

private theorem readsBack_int (layout : Layout) (n : Int) : ReadsBack layout (.int n) := by
  intro level fuel rest hfuel hrest
  obtain ⟨c, cs, hcons, -⟩ := exists_encode_eq layout level (.int n)
  rw [hcons] at hfuel
  obtain ⟨fuel, rfl⟩ := Nat.exists_eq_succ_of_ne_zero (Nat.ne_zero_of_lt hfuel)
  exact decode_int fuel n hrest

private theorem readsBack_text (layout : Layout) (s : String) : ReadsBack layout (.text s) := by
  intro level fuel rest hfuel hrest
  have hlength := length_encodeText s
  rw [encode] at hfuel ⊢
  obtain ⟨fuel, rfl⟩ := Nat.exists_eq_succ_of_ne_zero (show fuel ≠ 0 by omega)
  rw [decode, dropWhile_encodeText]
  simp only [decodeText_encode s.toList rest (show s.toList.length < fuel + 1 by omega), Option.map_some,
    String.ofList_toList]

private theorem readsBack_list {layout : Layout} (hlayout : layout.Blank) {items : List Value}
    (hplain : ∀ v ∈ items, v.Plain)
    (h : ∀ v ∈ items, ReadsBack layout v) : ReadsBack layout (.list items) := by
  intro level fuel rest hfuel hrest
  cases items with
  | nil =>
    cases fuel with
    | zero => cases hfuel
    | succ fuel => rfl
  | cons item items =>
    obtain ⟨c, cs, hcons, hspace, hc, -⟩ := exists_encode_eq layout (level + 1) (hplain item (.head _))
    simp only [encode, List.cons_append, List.append_assoc, List.length_cons, List.length_append, List.nil_append]
      at hfuel ⊢
    obtain ⟨fuel, rfl⟩ := Nat.exists_eq_succ_of_ne_zero (show fuel ≠ 0 by omega)
    have hlead := hlayout.lead (level + 1)
    have hread := decodeItems_encode hlayout h (level + 1) (hlayout.lead level)
      (fun rest => delimits_lead layout level (delimits_cons (.inr (.inl rfl)) rest)) rest (show _ < fuel by omega)
    rw [decode_list, decodeItems_blank fuel hlead, hread]
    · rfl
    · rw [dropWhile_blank hlead, hcons, List.cons_append, List.dropWhile_cons_of_neg (by rw [hspace]; decide)]
      exact fun heq => hc (Option.some.inj heq)

private theorem readsBack_record {layout : Layout} (hlayout : layout.Blank) {entries : List (String × Value)}
    (hkeys : (entries.map (·.1)).Nodup) (h : ∀ e ∈ entries, ReadsBack layout e.2) :
    ReadsBack layout (.record entries) := by
  intro level fuel rest hfuel hrest
  cases entries with
  | nil =>
    cases fuel with
    | zero => cases hfuel
    | succ fuel => rfl
  | cons entry entries =>
    obtain ⟨key, v⟩ := entry
    have hrecord : Value.record ((key, v) :: entries) = .map ((.text key, v) :: textEntries entries) := rfl
    rw [hrecord] at hfuel ⊢
    simp only [encode, encodeKey, List.cons_append, List.append_assoc, List.length_cons, List.length_append,
      List.nil_append] at hfuel ⊢
    obtain ⟨fuel, rfl⟩ := Nat.exists_eq_succ_of_ne_zero (show fuel ≠ 0 by omega)
    have hlead := hlayout.lead (level + 1)
    have hread := @decodeEntries_encode layout hlayout key v entries (h (key, v) (.head _))
      (fun e he => h e (.tail _ he)) (level + 1) _ (hlayout.lead level)
      (fun rest => delimits_lead layout level (delimits_cons (.inr (.inr (.inl rfl))) rest)) rest fuel (by omega)
    rw [decode_map, decodeEntries_blank fuel hlead, hread]
    · exact congrArg some (congrArg (·, rest) (ofEntries_textEntries hkeys))
    · rw [dropWhile_blank hlead, dropWhile_encodeText]
      rintro ⟨⟩

/-- Every plain value is read back from its text. -/
theorem decode_encode {layout : Layout} (hlayout : layout.Blank) {v : Value} (h : v.Plain) : ReadsBack layout v := by
  induction h with
  | null =>
    intro level fuel rest hfuel hrest
    cases fuel with
    | zero => cases hfuel
    | succ fuel => rfl
  | bool b =>
    intro level fuel rest hfuel hrest
    cases fuel with
    | zero => cases b <;> cases hfuel
    | succ fuel => cases b <;> rfl
  | int n => exact readsBack_int layout n
  | text s => exact readsBack_text layout s
  | list hitems ih => exact readsBack_list hlayout hitems ih
  | record hkeys _ ih => exact readsBack_record hlayout hkeys ih

/-- What is written of a plain value is JSON, and it says that value. -/
theorem read?_write {layout : Layout} (hlayout : layout.Blank) {v : Value} (h : v.Plain) :
    read? (write layout v) = some v := by
  have hread := decode_encode hlayout h 0 (2 * (encode layout 0 v).length + 2) [] (by omega) (by rintro c ⟨⟩)
  rw [List.append_nil] at hread
  rw [read?, write, String.toList_ofList]
  simp only [hread, List.all_nil, if_true]

end Json

end MarkdownTree.Value
