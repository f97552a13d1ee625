import MarkdownTree.Proofs.Container
import MarkdownTree.Proofs.LineStart

/-!
# First lines of items

The first line of an item is a marker and what stands behind it, down to the lists nested at its start.  Bullets of
nested lists may be all that stands there, and three of them make a rule if they are the same (`IsBehind.isRule_iff`).
A line with a number that has more than nine digits has no marker either; all others are read as the marker that they
start with (`IsItemLine.readsAsItem`).
-/

namespace MarkdownTree.Print

open Text Scan

/-! ### Lines of bullets -/

/-- Bullets, each with a space before it. -/
def bullets (bullet : Char) : Nat → List Char
  | 0 => []
  | n + 1 => ' ' :: bullet :: bullets bullet n

/-- Something in a line is neither a gap nor a mark. -/
def Breaks (mark : Char) (line : List Char) : Prop :=
  ∃ d ∈ line, d ≠ mark ∧ isGap d = false

/-- What stands behind a mark at the start of a line: so many bullets less that one, or something that is no bullet. -/
def IsBehind (bullet mark : Char) (rest : List Char) : Nat → Prop
  | 0 => Breaks mark rest
  | n + 1 => rest = bullets bullet n

/-- The first line of a block that stands behind a mark: so many bullets, or something that is not that mark. -/
def IsBlockLine (bullet mark : Char) (line : List Char) : Nat → Prop
  | 0 => Breaks mark line
  | n + 1 => line = bullet :: bullets bullet n

private theorem Breaks.append_right {mark : Char} {line : List Char} (h : Breaks mark line) (before : List Char) :
    Breaks mark (before ++ line) := by
  obtain ⟨d, hd, hne, hgap⟩ := h
  exact ⟨d, List.mem_append_right before hd, hne, hgap⟩

theorem breaks_of_mem {mark c : Char} {cs : List Char} (hc : c ∈ cs) (hne : c ≠ mark) (hblank : isBlank c = false) :
    Breaks mark cs :=
  ⟨c, hc, hne, isGap_of_not_isBlank hblank⟩

theorem IsBlockLine.ne_nil {bullet mark : Char} {x : List Char} {n : Nat}
    (h : IsBlockLine bullet mark (firstLine x) n) :
    x ≠ [] := by
  rintro rfl
  cases n with
  | zero =>
    obtain ⟨d, hd, -⟩ := h
    cases hd
  | succ n => cases h

/-- The first line of a list is that of its first item, whatever mark stands before the list. -/
theorem IsBehind.isBlockLine {bullet : Char} {rest : List Char} {n : Nat} (h : IsBehind bullet bullet rest n)
    (hbullet : isBlank bullet = false) (mark : Char) : IsBlockLine bullet mark (bullet :: rest) n := by
  cases n with
  | zero =>
    by_cases hmark : bullet = mark
    · subst hmark
      exact Breaks.append_right h [bullet]
    · exact breaks_of_mem (.head _) hmark hbullet
  | succ n => exact congrArg _ h

private theorem mem_bullets {bullet c : Char} {n : Nat} (h : c ∈ bullets bullet n) : c = ' ' ∨ c = bullet := by
  induction n with
  | zero => cases h
  | succ n ih =>
    rcases List.mem_cons.1 h with rfl | h
    · exact .inl rfl
    · rcases List.mem_cons.1 h with rfl | h
      · exact .inr rfl
      · exact ih h

private theorem count_bullets {bullet : Char} (h : bullet ≠ ' ') (n : Nat) : (bullets bullet n).count bullet = n := by
  induction n with
  | zero => rfl
  | succ n ih => rw [bullets, List.count_cons_of_ne (Ne.symm h), List.count_cons_self, ih]

/-- A mark and what stands behind it make a rule if they are three bullets of those that rules are made of. -/
theorem IsBehind.isRule_iff {bullet mark : Char} {rest : List Char} {n : Nat} (h : IsBehind bullet mark rest n)
    (hbullet : isGap bullet = false) :
    isRule (mark :: rest) = true ↔ (mark = '-' ∨ mark = '*' ∨ mark = '_') ∧ mark = bullet ∧ 3 ≤ n := by
  have hspace : bullet ≠ ' ' := by
    rintro rfl
    cases hbullet
  simp only [isRule, Bool.and_eq_true, Bool.or_eq_true, beq_iff_eq, List.all_eq_true, decide_eq_true_eq, or_assoc,
    and_assoc]
  refine and_congr_right fun _ => ⟨?_, ?_⟩
  · rintro ⟨hall, hcount⟩
    cases n with
    | zero =>
      obtain ⟨d, hd, hne, hgap⟩ := h
      rcases hall d hd with rfl | hd
      · exact absurd rfl hne
      · rw [hgap] at hd
        cases hd
    | succ n =>
      rw [show rest = _ from h] at hall hcount
      have hmark : mark = bullet := by
        cases n with
        | zero => simp [bullets] at hcount
        | succ n =>
          rcases hall bullet (by simp [bullets]) with hmark | hgap
          · exact hmark.symm
          · rw [hbullet] at hgap
            cases hgap
      rw [hmark, count_bullets hspace] at hcount
      exact ⟨hmark, by omega⟩
  · rintro ⟨rfl, hthree⟩
    obtain ⟨n, rfl⟩ := Nat.exists_eq_add_of_le' (show 1 ≤ n by omega)
    rw [show rest = _ from h, count_bullets hspace]
    refine ⟨fun c hc => ?_, by omega⟩
    rcases mem_bullets hc with rfl | rfl
    · exact .inr rfl
    · exact .inl rfl

/-! ### Markers -/

/-- A bullet of a list that is not ordered. -/
abbrev IsBullet (c : Char) : Prop :=
  c = '-' ∨ c = '+' ∨ c = '*'

/-- A mark of ordered lists, or of others. -/
def IsListMark (ordered : Bool) (symbol : Char) : Prop :=
  if ordered then symbol = '.' ∨ symbol = ')' else IsBullet symbol

/-- The number of an item as it stands in its marker. -/
def numeral (number : Option Nat) : List Char :=
  number.elim [] (Nat.toDigits 10)

/-- What makes a marker: a number, or nothing before a bullet, and a mark behind it. -/
structure IsMarkerText (number : List Char) (symbol : Char) : Prop where
  digits : ∀ c ∈ number, isBlank c = false
  mark : isBlank symbol = false
  bullet : number = [] → IsBullet symbol

theorem isMarkerText_numeral {number : Option Nat} {symbol : Char} (h : IsListMark number.isSome symbol) :
    IsMarkerText (numeral number) symbol := by
  cases number with
  | none =>
    refine ⟨by simp [numeral], ?_, fun _ => h⟩
    rcases h with rfl | rfl | rfl <;> decide
  | some n =>
    refine ⟨fun c hc => isBlank_toDigits hc, ?_, fun hnil => absurd hnil Nat.toDigits_ne_nil⟩
    rcases h with rfl | rfl <;> decide

theorem breaks_numeral {mark : Char} (hmark : IsBullet mark) (n : Nat) (rest : List Char) :
    Breaks mark (numeral (some n) ++ rest) := by
  obtain ⟨c, cs, hcs⟩ := List.exists_cons_of_ne_nil (Nat.toDigits_ne_nil (n := n) (b := 10))
  have hc : c ∈ Nat.toDigits 10 n := by simp [hcs]
  have hdigit := Nat.isDigit_of_mem_toDigits (by decide) (by decide) hc
  refine breaks_of_mem (List.mem_append_left rest hc) ?_ (isBlank_toDigits hc)
  rintro rfl
  rcases hmark with rfl | rfl | rfl <;> cases hdigit

/-! ### Lines of items -/

theorem firstLine_join (more x : List Char) (xs : List (List Char)) :
    firstLine (join ('\n' :: more) (x :: xs)) = firstLine x := by
  cases xs with
  | nil => rfl
  | cons y ys =>
    show firstLine (x ++ '\n' :: more ++ join _ (y :: ys)) = firstLine x
    rw [List.append_assoc, List.cons_append, firstLine_newline]

/-- What separates the blocks in a container. -/
theorem exists_separator (f : Frame) : ∃ more, f.separator = '\n' :: more := by
  unfold Frame.separator
  split
  · exact ⟨[], rfl⟩
  · exact ⟨['\n'], rfl⟩

private theorem firstLine_leadLines (empty full content : List Char) :
    firstLine (leadLines empty full false content) = firstLine content := by
  induction content with
  | nil => rfl
  | cons c content ih =>
    by_cases hc : c = '\n'
    · rw [hc]
      rfl
    · rw [leadLines, beq_false_of_ne hc]
      exact (firstLine_cons hc _).trans ((congrArg _ ih).trans (firstLine_cons hc _).symm)

/-- The first line of an item that is printed as so many bullets: a marker, alone or with a gap behind it. -/
def IsItemLine (bullet : Char) (number : List Char) (symbol : Char) (n : Nat) (line : List Char) : Prop :=
  ∃ rest, line = number ++ symbol :: rest ∧ endsOrGap rest = true ∧ (number = [] → IsBehind bullet symbol rest n)

section

variable {number : List Char} {symbol : Char} (h : IsMarkerText number symbol) (checked : Option Bool)
include h

private theorem firstLine_marker (rest : List Char) :
    firstLine (number ++ symbol :: rest) = number ++ symbol :: firstLine rest := by
  have hnewline : '\n' ∉ number := fun hmem => by cases h.digits _ hmem
  have hsymbol : symbol ≠ '\n' := by
    rintro rfl
    cases h.mark
  rw [firstLine_append hnewline, firstLine_cons hsymbol]

/-- An item without content has its marker, and its task box behind a space. -/
private theorem itemText_nil : itemText (number ++ [symbol, ' ']) (taskBox ((checked.map Value.bool).getD .null)) [] =
    number ++ symbol :: checked.elim [] fun b => [' ', '[', if b then 'x' else ' ', ']'] := by
  rw [itemText, if_pos (by rfl), trimEnd]
  have hspace : ∀ c ∈ [' '], isBlank c = true := by simp [show isBlank ' ' = true from rfl]
  cases checked with
  | none =>
    have hsplit : number ++ [symbol, ' '] ++ [] = (number ++ [symbol]) ++ [' '] := by simp
    show dropEndWhile isBlank (number ++ [symbol, ' '] ++ []) = number ++ [symbol]
    rw [hsplit, dropEndWhile_append_of_pos _ hspace]
    exact dropEndWhile_eq_self (by simp [h.mark])
  | some b =>
    have hsplit (d : Char) : number ++ [symbol, ' '] ++ ['[', d, ']', ' '] =
        (number ++ [symbol, ' ', '[', d, ']']) ++ [' '] := by
      simp
    show dropEndWhile isBlank (number ++ [symbol, ' '] ++ ['[', if b then 'x' else ' ', ']', ' ']) = _
    rw [hsplit, dropEndWhile_append_of_pos _ hspace]
    have hbracket : isBlank ']' = false := by decide
    refine dropEndWhile_eq_self ?_
    rw [List.append_cons]
    simp [hbracket]

theorem isItemLine_nil (bullet : Char) : IsItemLine bullet number symbol (if checked = none then 1 else 0)
    (firstLine (itemText (number ++ [symbol, ' ']) (taskBox ((checked.map Value.bool).getD .null)) [])) := by
  rw [itemText_nil h, firstLine_marker h]
  cases checked with
  | none => exact ⟨[], rfl, rfl, fun _ => rfl⟩
  | some b =>
    refine ⟨[' ', '[', if b then 'x' else ' ', ']'], ?_, rfl, fun hnumber => ?_⟩
    · cases b <;> rfl
    · refine breaks_of_mem (show '[' ∈ _ by simp) ?_ (by decide)
      rcases h.bullet hnumber with rfl | rfl | rfl <;> decide

/-- The first line of an item with content is the marker with a task box and the first line of the content behind it. -/
theorem isItemLine_of_ne_nil {bullet : Char} {content : List Char} (hne : content ≠ []) {n : Nat}
    (hline : number = [] → IsBlockLine bullet symbol (firstLine content) n) :
    IsItemLine bullet number symbol (if checked = none ∧ n ≠ 0 then n + 1 else 0)
      (firstLine (itemText (number ++ [symbol, ' ']) (taskBox ((checked.map Value.bool).getD .null)) content)) := by
  have hbox : '\n' ∉ taskBox ((checked.map Value.bool).getD .null) := by
    rcases checked with _ | _ | _ <;> decide
  have hsplit (lines : List Char) : number ++ [symbol, ' '] ++ taskBox ((checked.map Value.bool).getD .null) ++ lines =
      number ++ symbol :: ' ' :: (taskBox ((checked.map Value.bool).getD .null) ++ lines) := by simp
  rw [itemText_eq_leadLines hne, hsplit, firstLine_marker h, firstLine_cons (by decide), firstLine_append hbox,
    firstLine_leadLines]
  refine ⟨_, rfl, rfl, fun hnumber => ?_⟩
  cases checked with
  | none =>
    have hcontent := hline hnumber
    cases n with
    | zero => exact Breaks.append_right hcontent [' ']
    | succ n => exact congrArg _ hcontent
  | some b =>
    refine breaks_of_mem (show '[' ∈ _ by simp [taskBox]) ?_ (by decide)
    rcases h.bullet hnumber with rfl | rfl | rfl <;> decide

end

/-- What an item with a number in its marker is printed as, whatever it holds. -/
theorem isItemLine_of_number {number : List Char} {symbol : Char} (h : IsMarkerText number symbol) (hne : number ≠ [])
    (bullet : Char) (n : Nat) (checked : Option Bool) (content : List Char) : IsItemLine bullet number symbol n
      (firstLine (itemText (number ++ [symbol, ' ']) (taskBox ((checked.map Value.bool).getD .null)) content)) := by
  have hmarked : ∃ m, IsItemLine bullet number symbol m
      (firstLine (itemText (number ++ [symbol, ' ']) (taskBox ((checked.map Value.bool).getD .null)) content)) := by
    by_cases hcontent : content = []
    · rw [hcontent]
      exact ⟨_, isItemLine_nil h checked bullet⟩
    · exact ⟨_, isItemLine_of_ne_nil (n := 0) h checked hcontent fun hnil => absurd hnil hne⟩
  obtain ⟨m, rest, hline, hgap, -⟩ := hmarked
  exact ⟨rest, hline, hgap, fun hnil => absurd hnil hne⟩

/-! ### Reading items -/

/-- The marker of an item that is printed as so many bullets is not read: its number has more than nine digits, or the
bullets make a rule. -/
def HidesMarker (bullet symbol : Char) (n : Nat) : Option Nat → Prop
  | some number => 999999999 < number
  | none => symbol = bullet ∧ symbol ≠ '+' ∧ 3 ≤ n

instance (bullet symbol : Char) (n : Nat) : DecidablePred (HidesMarker bullet symbol n) := fun number => by
  unfold HidesMarker
  cases number <;> infer_instance

/-- The first line of an item, wherever it stands, is read as the item's marker unless that is hidden.  Then it is not
read as a marker, and it is a rule if there is no number in it. -/
structure ReadsAsItem (bullet symbol : Char) (number : Option Nat) (n : Nat) (line : List Char) : Prop where
  shown : ¬HidesMarker bullet symbol n number → ∀ (tab : Rat) (l : Line), l.text = line →
    ∃ m, Marker.read? tab l = some m ∧ m.symbol = symbol ∧ m.number = number
  hidden : HidesMarker bullet symbol n number → ∀ (tab : Rat) (l : Line), l.text = line → Marker.read? tab l = none
  rule : isRule line = true ↔ number = none ∧ HidesMarker bullet symbol n number

theorem read?_of_head {l : Line} {c : Char} {cs : List Char} (hl : l.text = c :: cs) (hc : isBlank c = false)
    (tab : Rat) :
    (Marker.read? tab l).map (fun m => (m.symbol, m.number)) =
      if isRule l.text then none else (marker? l.text).map fun p => (p.1, p.2.1) := by
  unfold Marker.read?
  dsimp only
  rw [Line.indent_of_head hl hc, Line.trimStart_of_head hl hc]
  cases isRule l.text with
  | true => simp
  | false =>
    rw [if_neg (by decide), if_neg (by decide), Option.map_map]
    cases marker? l.text with
    | none => rfl
    | some p =>
      obtain ⟨symbol, number, size⟩ := p
      simp only [Option.map_some, Function.comp_apply]
      split
      · rfl
      · split <;> rfl

private theorem marker?_numeral {n : Nat} {symbol : Char} (hsymbol : symbol = '.' ∨ symbol = ')') {rest : List Char}
    (hrest : endsOrGap rest = true) : (marker? (numeral (some n) ++ symbol :: rest)).map (fun p => (p.1, p.2.1)) =
      if 999999999 < n then none else some (symbol, some n) := by
  have hlen : (Nat.toDigits 10 n).length ≤ 9 ↔ n < 10 ^ 9 := Nat.length_toDigits_le_iff (by decide) (by decide)
  have hdigits : ∀ c ∈ Nat.toDigits 10 n, isDigit c = true := fun c hc => isDigit_toDigits hc
  split
  · rename_i hlarge
    obtain ⟨c, cs, hcs⟩ := List.exists_cons_of_ne_nil (Nat.toDigits_ne_nil (n := n) (b := 10))
    have hsymbol' : isDigit symbol = false := by rcases hsymbol with rfl | rfl <;> decide +kernel
    have htake : (Nat.toDigits 10 n ++ symbol :: rest).takeWhile isDigit = Nat.toDigits 10 n := by
      rw [List.takeWhile_append_of_pos hdigits, List.takeWhile_cons, hsymbol']
      simp
    have hc : isDigit c = true := hdigits c (by simp [hcs])
    have hmark : ¬(c = '-' ∨ c = '+' ∨ c = '*') := by
      rintro (rfl | rfl | rfl) <;> exact absurd hc (by decide +kernel)
    have hlong : ¬(Nat.toDigits 10 n).length ≤ 9 := by omega
    show (marker? (Nat.toDigits 10 n ++ symbol :: rest)).map _ = none
    rw [hcs] at htake hlong ⊢
    unfold marker?
    dsimp only [List.cons_append] at htake ⊢
    rw [if_neg (fun h => hmark h.1), htake, ← List.cons_append, List.drop_left]
    dsimp only
    rw [if_neg (fun h => hlong h.2.1)]
    rfl
  · rename_i hsmall
    have hmarker := IsMarker.ordered Nat.toDigits_ne_nil (hlen.2 (by omega)) hdigits hsymbol
    obtain ⟨last, hlast, hread⟩ := hmarker.marker?_eq hrest
    rw [List.getLast?_concat] at hlast
    cases hlast
    rw [natOfDigits_toDigits, List.append_assoc] at hread
    show (marker? (Nat.toDigits 10 n ++ ([symbol] ++ rest))).map _ = _
    rw [hread]
    rfl

private theorem readsAsItem_of_head {bullet symbol : Char} {number : Option Nat} {n : Nat} {c : Char} {cs : List Char}
    (hc : isBlank c = false) (hrule : isRule (c :: cs) = true ↔ number = none ∧ HidesMarker bullet symbol n number)
    (hmarker : isRule (c :: cs) = false → (marker? (c :: cs)).map (fun p => (p.1, p.2.1)) =
      if HidesMarker bullet symbol n number then none else some (symbol, number)) :
    ReadsAsItem bullet symbol number n (c :: cs) := by
  refine ⟨fun hshown tab l hl => ?_, fun hhidden tab l hl => ?_, hrule⟩
  · have hread := read?_of_head hl hc tab
    have hno : isRule (c :: cs) = false := Bool.eq_false_iff.2 fun h => hshown (hrule.1 h).2
    rw [hl, hno, if_neg (by decide), hmarker hno, if_neg hshown, Option.map_eq_some_iff] at hread
    obtain ⟨m, hm, hpair⟩ := hread
    exact ⟨m, hm, congrArg Prod.fst hpair, congrArg Prod.snd hpair⟩
  · have hread := read?_of_head hl hc tab
    rw [hl] at hread
    cases hno : isRule (c :: cs) with
    | true =>
      rw [hno, if_pos rfl] at hread
      exact Option.map_eq_none_iff.1 hread
    | false =>
      rw [hno, if_neg (by decide), hmarker hno, if_pos hhidden] at hread
      exact Option.map_eq_none_iff.1 hread

theorem IsItemLine.readsAsItem {bullet symbol : Char} {number : Option Nat} {n : Nat} {line : List Char}
    (h : IsItemLine bullet (numeral number) symbol n line) (hbullet : isGap bullet = false)
    (hsymbol : IsListMark number.isSome symbol) : ReadsAsItem bullet symbol number n line := by
  obtain ⟨rest, rfl, hgap, hbehind⟩ := h
  cases number with
  | none =>
    have hbullets : IsBullet symbol := hsymbol
    have hrule : isRule (symbol :: rest) = true ↔ (none : Option Nat) = none ∧ HidesMarker bullet symbol n none := by
      rw [(hbehind rfl).isRule_iff hbullet, HidesMarker]
      rcases hbullets with rfl | rfl | rfl <;> simp
    refine readsAsItem_of_head (@isMarkerText_numeral none symbol hsymbol).mark hrule fun hno => ?_
    obtain ⟨last, hlast, hread⟩ := (IsMarker.bullet hbullets).marker?_eq hgap
    cases hlast
    rw [if_neg fun hhidden => by simp [hrule.2 ⟨rfl, hhidden⟩] at hno]
    rw [← List.singleton_append, hread]
    rfl
  | some k =>
    obtain ⟨c, cs, hcs⟩ := List.exists_cons_of_ne_nil (Nat.toDigits_ne_nil (n := k) (b := 10))
    have hc : isDigit c = true := isDigit_toDigits (n := k) (by simp [hcs])
    have hread := marker?_numeral (n := k) hsymbol hgap
    have hline : numeral (some k) ++ symbol :: rest = c :: (cs ++ symbol :: rest) := by
      rw [← List.cons_append, ← hcs]
      rfl
    rw [hline] at hread ⊢
    have hrule : isRule (c :: (cs ++ symbol :: rest)) = false := by
      refine isRule_eq_false ?_ ?_ ?_ <;> (rintro rfl; exact absurd hc (by decide +kernel))
    exact readsAsItem_of_head (isBlank_of_isDigit hc) (by simp [hrule]) fun _ => hread

end MarkdownTree.Print
