import MarkdownTree.Proofs.Line

/-!
# What signs say

Bounds for what the readers of signs find: depths of headings lie between one and six, numbers of list markers have at
most nine digits (`marker?_eq_some`), and a sign ends no later than the text that it stands in without the blanks at its
end, as it ends in a character that is not blank.  A marker lies in its line (`Marker.Within`).
-/

namespace MarkdownTree.Scan

open Text

/-! ### Numbers -/

private theorem digitValue_lt (c : Char) : (digitValue? c).getD 0 < 10 := by
  unfold digitValue?
  cases hz : zeros.find? fun z => z ≤ c.toNat && c.toNat < z + 10 with
  | none => simp
  | some z =>
    have := List.find?_some hz
    simp only [Bool.and_eq_true, decide_eq_true_eq] at this
    simp only [Option.map_some, Option.getD_some]
    omega

/-- So many digits write a number below that power of ten. -/
private theorem natOfDigits_lt (cs : List Char) : natOfDigits cs < Nat.pow 10 cs.length := by
  induction cs using List.reverseRecOn with
  | nil => simp [natOfDigits]
  | append_singleton cs c ih =>
    have hvalue := digitValue_lt c
    unfold natOfDigits at ih ⊢
    rw [List.foldl_append, List.length_append, List.length_singleton]
    simp only [List.foldl_cons, List.foldl_nil]
    have hpow : Nat.pow 10 (cs.length + 1) = Nat.pow 10 cs.length * 10 := rfl
    omega

/-! ### Ends that are not blank -/

/-- A text goes on at least to a character that is not blank. -/
private theorem lt_length_trimEnd {cs : List Char} {n : Nat} {c : Char} (hc : cs[n]? = some c)
    (hb : isBlank c = false) :
    n < (trimEnd cs).length := by
  induction cs using List.reverseRecOn with
  | nil => cases hc
  | append_singleton cs d ih =>
    rw [trimEnd, dropEndWhile_concat]
    have hn := (List.getElem?_eq_some_iff.1 hc).1
    rw [List.length_append, List.length_singleton] at hn
    split
    · rename_i hd
      rcases Nat.lt_or_ge n cs.length with hlt | hge
      · rw [List.getElem?_append_left hlt] at hc
        exact ih hc
      · have heq : n = cs.length := by omega
        subst heq
        rw [List.getElem?_concat_length] at hc
        cases hc
        rw [hd] at hb
        cases hb
    · rw [List.length_append, List.length_singleton]
      exact hn

/-- A list marker is not empty and ends in a character that is not blank, and its number has at most nine digits. -/
theorem marker?_eq_some {cs : List Char} {symbol : Char} {number : Option Nat} {size : Nat}
    (h : marker? cs = some (symbol, number, size)) :
    0 < size ∧ size ≤ (trimEnd cs).length ∧ ∀ n ∈ number, n ≤ 999999999 := by
  unfold marker? at h
  split at h
  · cases h
  · rename_i c rest
    split at h
    · rename_i hc
      cases h
      have hb : isBlank symbol = false := by
        rcases hc.1 with rfl | rfl | rfl <;> decide
      exact ⟨Nat.one_pos, lt_length_trimEnd rfl hb, by simp⟩
    · dsimp only at h
      split at h
      · rename_i d after hdrop
        split at h
        · rename_i hcond
          cases h
          have hb : isBlank symbol = false := by
            rcases hcond.2.2.1 with rfl | rfl <;> decide
          have hsymbol : (c :: rest)[((c :: rest).takeWhile isDigit).length]? = some symbol := by
            rw [← List.head?_drop, hdrop, List.head?_cons]
          refine ⟨Nat.succ_pos _, lt_length_trimEnd hsymbol hb, ?_⟩
          simp only [Option.mem_def, Option.some.injEq, forall_eq']
          have hlt := natOfDigits_lt ((c :: rest).takeWhile isDigit)
          have hpow : Nat.pow 10 ((c :: rest).takeWhile isDigit).length ≤ 1000000000 :=
            Nat.pow_le_pow_right (by decide) hcond.2.1
          omega
        · cases h
      · cases h

/-- The depth of a heading mark. -/
theorem headingDepth?_eq_some {cs : List Char} {depth : Nat} (h : headingDepth? cs = some depth) :
    1 ≤ depth ∧ depth ≤ 6 ∧ depth ≤ cs.length := by
  unfold headingDepth? at h
  dsimp only at h
  split at h
  · rename_i hcond
    cases h
    exact ⟨hcond.1, hcond.2.1, (List.takeWhile_sublist _).length_le⟩
  · cases h

theorem underlineDepth?_eq_some {cs : List Char} {depth : Nat} (h : underlineDepth? cs = some depth) :
    1 ≤ depth ∧ depth ≤ 2 ∧ cs.all isBlank = false := by
  unfold underlineDepth? at h
  split at h
  · cases h
  · rename_i c rest
    split at h
    · rename_i hcond
      cases h
      have hb : isBlank c = false := by
        rcases hcond.1 with rfl | rfl <;> decide
      refine ⟨by split <;> omega, by split <;> omega, ?_⟩
      simp [hb]
    · cases h

theorem taskBox?_le {cs : List Char} {checked : Bool} {size : Nat} (h : taskBox? cs = some (checked, size)) :
    size ≤ cs.length := by
  unfold taskBox? at h
  split at h
  · rename_i c rest
    dsimp only at h
    split at h
    · split at h
      · cases h
        have := (List.takeWhile_sublist (l := rest) isGap).length_le
        simp only [List.length_cons]
        omega
      · cases h
    · cases h
  · cases h

/-! ### Texts that start otherwise -/

section

variable {c : Char} {cs : List Char}

theorem headingDepth?_eq_none (h : c ≠ '#') : headingDepth? (c :: cs) = none := by
  have hnone : (c :: cs).takeWhile (· == '#') = [] := by simp [h]
  rw [headingDepth?, hnone]
  simp

theorem opening?_eq_none (h : c ≠ '\x60') (h' : c ≠ '~') : Fence.opening? (c :: cs) = none := by
  rw [Fence.opening?, Fence.read?]
  simp [h, h']

theorem isRule_eq_false (h : c ≠ '-') (h' : c ≠ '*') (h'' : c ≠ '_') : isRule (c :: cs) = false := by
  simp [isRule, h, h', h'']

theorem underlineDepth?_eq_none (h : c ≠ '=') (h' : c ≠ '-') : underlineDepth? (c :: cs) = none := by
  simp [underlineDepth?, h, h']

theorem taskBox?_eq_none (h : c ≠ '[') : taskBox? (c :: cs) = none := by
  unfold taskBox?
  split
  · rename_i heq
    cases heq
    exact absurd rfl h
  · rfl

end

private theorem exists_zero_of_isDigit {c : Char} (h : isDigit c = true) :
    ∃ z ∈ zeros, z ≤ c.toNat ∧ c.toNat < z + 10 := by
  obtain ⟨n, hn⟩ := Option.isSome_iff_exists.1 h
  obtain ⟨z, hz, -⟩ := Option.map_eq_some_iff.1 hn
  have hrange := List.find?_some hz
  simp only [Bool.and_eq_true, decide_eq_true_eq] at hrange
  exact ⟨z, List.mem_of_find?_eq_some hz, hrange⟩

/-- Digits are not blank. -/
theorem isBlank_of_isDigit {c : Char} (h : isDigit c = true) : isBlank c = false := by
  obtain ⟨z, hz, hlow, hhigh⟩ := exists_zero_of_isDigit h
  have hapart : ∀ z ∈ zeros, ∀ r ∈ blankRanges, z + 10 ≤ r.1 ∨ r.2 < z := by decide
  rw [Bool.eq_false_iff, isBlank, ne_eq, inRanges_iff]
  rintro ⟨r, hr, hrlow, hrhigh⟩
  rcases hapart z hz r hr with h | h <;> omega

/-! ### Fences -/

theorem Fence.opening?_eq_some {cs : List Char} {f : Fence} (h : opening? cs = some f) :
    0 < f.size ∧ isBlank f.mark = false := by
  obtain ⟨hread, -⟩ := Option.filter_eq_some_iff.1 h
  unfold read? at hread
  split at hread
  · cases hread
  · rename_i c rest
    dsimp only at hread
    split at hread
    · rename_i hcond
      cases hread
      refine ⟨Nat.succ_pos _, ?_⟩
      show isBlank c = false
      rcases hcond.1 with rfl | rfl <;> decide
    · cases hread

/-- A line that closes a fence is not blank. -/
theorem Fence.not_blank_of_closedBy {cs : List Char} {f : Fence} (hsize : 0 < f.size) (hmark : isBlank f.mark = false)
    (h : f.closedBy cs = true) : cs.all isBlank = false := by
  simp only [closedBy, Bool.and_eq_true, decide_eq_true_eq] at h
  cases cs with
  | nil =>
    have := h.1
    simp only [List.takeWhile_nil, List.length_nil] at this
    omega
  | cons c cs =>
    have hlen := h.1
    rw [List.takeWhile_cons] at hlen
    split at hlen
    · rename_i hc
      rw [beq_iff_eq] at hc
      simp [hc, hmark]
    · simp only [List.length_nil] at hlen
      omega

/-- A trimmed text without a word before its first space is empty. -/
theorem drop_takeWhile_trim (cs : List Char) (h : (trim cs).takeWhile (· != ' ') = []) :
    (trim cs).drop 1 = [] := by
  cases hcs : trim cs with
  | nil => rfl
  | cons c rest =>
    rw [hcs, List.takeWhile_cons] at h
    split at h
    · cases h
    · rename_i hc
      have hb : isBlank c = false := head?_trim (by rw [hcs, List.head?_cons])
      simp only [bne_iff_ne, ne_eq, Decidable.not_not] at hc
      rw [hc] at hb
      cases hb

/-! ### Texts of headings -/

theorem isBlank_of_isGap {c : Char} (h : isGap c = true) : isBlank c = true := by
  simp only [isGap, Bool.or_eq_true, beq_iff_eq] at h
  rcases h with rfl | rfl <;> decide

theorem isGap_of_not_isBlank {c : Char} (h : isBlank c = false) : isGap c = false :=
  Bool.eq_false_iff.2 fun hgap => by simp [isBlank_of_isGap hgap] at h

/-- Where the gaps at the end are gone and a character is left that is not blank, all blanks at the end are gone. -/
private theorem dropEndWhile_isGap {cs : List Char} {c : Char} (h : (dropEndWhile isGap cs).getLast? = some c)
    (hb : isBlank c = false) : dropEndWhile isGap cs = trimEnd cs := by
  induction cs using List.reverseRecOn with
  | nil => cases h
  | append_singleton cs d ih =>
    rw [dropEndWhile_concat] at h ⊢
    rw [trimEnd, dropEndWhile_concat]
    split at h
    · rename_i hd
      rw [if_pos hd, if_pos (isBlank_of_isGap hd)]
      exact ih h
    · rename_i hd
      rw [List.getLast?_concat] at h
      cases h
      rw [if_neg hd, if_neg (by simp [hb])]

/-- What a heading says ends no later than its text without the blanks at its end. -/
theorem prefix_headingText (cs : List Char) : headingText cs <+: trimEnd cs := by
  unfold headingText
  dsimp only
  split
  · rename_i hcond
    -- The text without gaps ends in a number sign, so no other blanks are left there.
    obtain ⟨c, hlast⟩ : ∃ c, (dropEndWhile isGap cs).getLast? = some c := by
      cases hbody : dropEndWhile isGap cs with
      | nil =>
        rw [hbody] at hcond
        exact absurd hcond.1 (Nat.not_lt_zero _)
      | cons c rest => exact ⟨_, List.getLast?_eq_some_getLast (by simp)⟩
    have hsign : c = '#' := by
      obtain ⟨init, hinit⟩ := List.getLast?_eq_some_iff.1 hlast
      have hlen := hcond.1
      rw [hinit, dropEndWhile_concat] at hlen
      split at hlen
      · simpa using ‹(c == '#') = true›
      · exact absurd hlen (Nat.lt_irrefl _)
    rw [← dropEndWhile_isGap hlast (by rw [hsign]; decide)]
    exact (prefix_dropEndWhile _ _).trans (prefix_dropEndWhile _ _)
  · exact List.prefix_rfl

/-! ### List markers -/

/-- A marker stands in a line, and what it leaves of the line is an end of it. -/
structure Marker.Within (m : Marker) (l : Line) : Prop where
  le : l.offset ≤ m.start
  lt : m.start < m.stop
  stop_le : m.stop ≤ l.contentStop
  content : m.content.EndOf l
  stop_le_content : m.stop ≤ m.content.offset
  number : ∀ n ∈ m.number, n ≤ 999999999

theorem Marker.Within.not_blank {m : Marker} {l : Line} (h : m.Within l) : l.isBlank = false := by
  have hle := h.le
  have hlt := h.lt
  have hstop := h.stop_le
  refine Bool.eq_false_iff.2 fun hb => ?_
  have hnil : trimEnd l.text = [] := dropEndWhile_eq_nil.2 (List.all_eq_true.1 hb)
  rw [Line.contentStop, hnil, List.length_nil] at hstop
  omega

theorem Marker.read?_within {tab : Rat} {l : Line} {m : Marker} (h : read? tab l = some m) : m.Within l := by
  unfold read? at h
  dsimp only at h
  split at h
  · cases h
  · obtain ⟨⟨symbol, number, size⟩, hmarker, h⟩ := Option.map_eq_some_iff.1 h
    obtain ⟨hpos, hsize, hnumber⟩ := marker?_eq_some hmarker
    have hbody := Line.trimStart_endOf l
    have hle : size ≤ l.trimStart.text.length := hsize.trans (length_dropEndWhile_le _ _)
    have hrest : (l.trimStart.drop size).EndOf l := (Line.drop_endOf hle).trans hbody
    -- Blanks at the end of the line do not count, and the marker ends before them.
    have hstop : l.trimStart.offset + size ≤ l.contentStop := by
      have hblank : l.trimStart.isBlank = false := by
        refine Bool.eq_false_iff.2 fun hb => ?_
        have hnil : trimEnd l.trimStart.text = [] := dropEndWhile_eq_nil.2 (List.all_eq_true.1 hb)
        rw [hnil, List.length_nil] at hsize
        omega
      rw [← hbody.contentStop_eq hblank]
      exact Nat.add_le_add_left hsize _
    have hwithin {indent : Rat} {content : Line} (hcontent : content.EndOf (l.trimStart.drop size)) :
        Within ⟨symbol, number, l.trimStart.offset, (l.trimStart.drop size).offset, indent, content⟩ l :=
      ⟨hbody.offset_le, Nat.lt_add_of_pos_right hpos, hstop, hcontent.trans hrest, hcontent.offset_le, hnumber⟩
    subst h
    split
    · exact hwithin (Line.stop_endOf _)
    · split
      · exact hwithin (Line.dropColumns_endOf _ _ _)
      · exact hwithin (Line.dropColumns_endOf _ _ _)

end MarkdownTree.Scan
