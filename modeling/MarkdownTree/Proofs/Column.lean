import Mathlib.Data.Rat.Floor
import Mathlib.Algebra.Order.Field.Power
import Mathlib.Tactic.Linarith
import Mathlib.Tactic.Positivity
import MarkdownTree.Scan.Line

/-!
# Columns

A computed column may move to the nearest binary number, but never below a whole number that is not above it
(`le_settle`).  So a text behind some spaces is indented at least as far as these go (`le_indentFrom`), whatever tabs
follow, and taking these columns off takes off the spaces (`indentSize_spaces`).
-/

namespace MarkdownTree

/-! ### Rounding -/

private theorem twoPow_eq (e : Int) : twoPow e = (2 : ℚ) ^ e := by
  unfold twoPow
  split
  · rename_i he
    obtain ⟨n, rfl⟩ := Int.eq_ofNat_of_zero_le he
    simp
  · rename_i he
    obtain ⟨n, rfl⟩ : ∃ n : Nat, e = -n := ⟨(-e).toNat, by omega⟩
    simp

private theorem floor_le_roundEven (r : Rat) : r.floor.toNat ≤ roundEven r := by
  unfold roundEven
  dsimp only
  split_ifs <;> omega

private theorem twoPow_floorLog2_le {r : Rat} (hr : 0 < r) : (2 : ℚ) ^ floorLog2 r ≤ r := by
  unfold floorLog2
  simp only [twoPow_eq]
  split_ifs with hup hsame
  · exact hup
  · exact hsame
  · have hnum : (0 : Int) < r.num := Rat.num_pos.2 hr
    have hlow : 2 ^ Nat.log2 r.num.natAbs ≤ r.num.natAbs := Nat.log2_self_le (by omega)
    have hhigh : r.den < 2 ^ (Nat.log2 r.den + 1) := Nat.lt_log2_self
    have hlow' : (2 : ℚ) ^ Nat.log2 r.num.natAbs ≤ (r.num : ℚ) := by
      have : ((2 ^ Nat.log2 r.num.natAbs : Nat) : Int) ≤ r.num := by omega
      exact_mod_cast this
    have hhigh' : (r.den : ℚ) ≤ 2 ^ (Nat.log2 r.den + 1) := by exact_mod_cast hhigh.le
    calc (2 : ℚ) ^ ((Nat.log2 r.num.natAbs : Int) - (Nat.log2 r.den : Int) - 1)
        = 2 ^ Nat.log2 r.num.natAbs / 2 ^ (Nat.log2 r.den + 1) := by
          rw [sub_sub, zpow_sub₀ (by norm_num)]
          norm_cast
      _ ≤ (r.num : ℚ) / r.den := by
          have hden : (0 : ℚ) < r.den := by exact_mod_cast r.den_pos
          exact div_le_div₀ (by exact_mod_cast hnum.le) hlow' hden hhigh'
      _ = r := Rat.num_div_den r

namespace Binary

private theorem magnitude_nearest (negative : Bool) (r : Rat) :
    (nearest negative r).magnitude =
      (roundEven (r / 2 ^ max (floorLog2 r - 52) (-1074)) : ℚ) * 2 ^ max (floorLog2 r - 52) (-1074) := by
  unfold nearest
  simp only [twoPow_eq]
  split_ifs with hzero hfull
  · simp [magnitude, zero, hzero]
  · rw [hfull, magnitude, twoPow_eq, zpow_add_one₀ (by norm_num)]
    push_cast
    ring
  · rw [magnitude, twoPow_eq]

/-- Rounding to binary numbers does not go below a whole number with few enough digits. -/
private theorem le_magnitude_nearest (negative : Bool) {k : Nat} (hk : k ≤ 2 ^ 53) {r : Rat} (hr : 0 < r) (h : k ≤ r) :
    (k : ℚ) ≤ (nearest negative r).magnitude := by
  rw [magnitude_nearest]
  generalize he : max (floorLog2 r - 52) (-1074) = e
  have hpos : (0 : ℚ) < 2 ^ e := by positivity
  -- What is rounded is at least its floor.
  have hround {n : Nat} (hn : (n : ℚ) ≤ r / 2 ^ e) : (n : ℚ) * 2 ^ e ≤ roundEven (r / 2 ^ e) * 2 ^ e := by
    refine mul_le_mul_of_nonneg_right ?_ hpos.le
    have hfloor : (n : Int) ≤ (r / 2 ^ e).floor := Rat.le_floor_iff.2 (by exact_mod_cast hn)
    have := floor_le_roundEven (r / 2 ^ e)
    exact_mod_cast (by omega : n ≤ roundEven (r / 2 ^ e))
  rcases le_or_gt e 0 with hle | hlt
  · -- Of small numbers, a multiple of a unit fraction is kept.
    obtain ⟨n, rfl⟩ : ∃ n : Nat, e = -n := ⟨(-e).toNat, by omega⟩
    have hunit : ((k * 2 ^ n : Nat) : ℚ) * 2 ^ (-n : Int) = k := by
      rw [zpow_neg, zpow_natCast]
      push_cast
      rw [mul_assoc, mul_inv_cancel₀ (by positivity), mul_one]
    rw [← hunit]
    refine hround ?_
    rw [le_div_iff₀ hpos, hunit]
    exact h
  · -- Large numbers keep their first digits.
    have hlog : e + 52 = floorLog2 r := by omega
    have hbig : (2 : ℚ) ^ (e + 52) ≤ r := hlog ▸ twoPow_floorLog2_le hr
    have hdigits : ((2 ^ 52 : Nat) : ℚ) ≤ r / 2 ^ e := by
      rw [le_div_iff₀ hpos]
      rw [zpow_add₀ (by norm_num)] at hbig
      exact_mod_cast (mul_comm _ _).trans_le hbig
    refine le_trans ?_ (hround hdigits)
    have htwo : (2 : ℚ) ≤ 2 ^ e := by
      calc (2 : ℚ) = 2 ^ (1 : Int) := by norm_num
        _ ≤ 2 ^ e := zpow_le_zpow_right₀ (by norm_num) (by omega)
    have hk' : (k : ℚ) ≤ 2 ^ 53 := by exact_mod_cast hk
    have hprod : ((2 ^ 52 : Nat) : ℚ) * 2 ≤ (2 ^ 52 : Nat) * 2 ^ e := mul_le_mul_of_nonneg_left htwo (by positivity)
    refine hk'.trans (le_trans (le_of_eq ?_) hprod)
    norm_num

end Binary

@[simp] theorem settle_natCast (n : Nat) : settle (n : Rat) = n :=
  if_pos (Rat.den_natCast n)

theorem settle_natCast_add_one (n : Nat) : settle ((n : Rat) + 1) = (n + 1 : Nat) := by
  rw [← Nat.cast_add_one, settle_natCast]

theorem le_settle {k : Nat} (hk : k ≤ 2 ^ 53) {r : Rat} (h : (k : ℚ) ≤ r) : (k : ℚ) ≤ settle r := by
  unfold settle
  split_ifs with hden
  · exact h
  have hne : r ≠ 0 := fun h0 => hden (by rw [h0]; rfl)
  have hpos : 0 < r := lt_of_le_of_ne ((Nat.cast_nonneg k).trans h) hne.symm
  rw [Binary.ofRat?, if_neg hne, if_neg hpos.le.not_gt, Binary.inRange?]
  split_ifs
  · have hsign : (Binary.nearest false r).negative = false := by
      unfold Binary.nearest
      dsimp only
      split_ifs <;> rfl
    rw [Option.map_some, Option.getD_some, Binary.toRat, hsign]
    exact Binary.le_magnitude_nearest false hk hpos h
  · exact h

/-! ### Indentation -/

namespace Scan.Line

variable {tab : Rat}

private theorem le_tabStop (htab : 0 < tab) {k : Nat} (hk : k ≤ 2 ^ 53) {column : Rat} (h : (k : ℚ) ≤ column) :
    (k : ℚ) ≤ tabStop tab column := by
  have hbelow : (column / tab).floor * tab ≤ column := by
    have := Rat.floor_le (column / tab)
    rwa [le_div_iff₀ htab] at this
  have habove : column < ((column / tab).floor + 1) * tab := by
    have := Rat.lt_floor_add_one (column / tab)
    rw [div_lt_iff₀ htab] at this
    exact_mod_cast this
  have hstep : ((0 : Nat) : ℚ) ≤ settle (tab - (column - (column / tab).floor * tab)) := by
    refine le_settle (by norm_num) ?_
    push_cast
    linarith
  refine le_settle hk ?_
  push_cast at hstep
  linarith

theorem le_indentFrom (htab : 0 < tab) {k : Nat} (hk : k ≤ 2 ^ 53) {column : Rat} (h : (k : ℚ) ≤ column)
    (cs : List Char) : (k : ℚ) ≤ indentFrom tab column cs := by
  induction cs generalizing column with
  | nil => exact h
  | cons c cs ih =>
    unfold indentFrom
    split_ifs
    · exact ih (le_settle hk (h.trans (by linarith)))
    · exact ih (le_tabStop htab hk h)
    · exact h

theorem indentFrom_spaces (tab : Rat) (column count : Nat) (cs : List Char) :
    indentFrom tab column (List.replicate count ' ' ++ cs) = indentFrom tab (column + count : Nat) cs := by
  induction count generalizing column with
  | zero => rfl
  | succ count ih =>
    rw [List.replicate_succ, List.cons_append, indentFrom, if_pos rfl]
    rw [settle_natCast_add_one, ih, Nat.add_right_comm, Nat.add_assoc]

theorem indentSize_spaces (tab : Rat) (column count : Nat) (cs : List Char) :
    indentSize tab (column + count : Nat) column (List.replicate count ' ' ++ cs) = count := by
  induction count generalizing column with
  | zero =>
    cases cs with
    | nil => rfl
    | cons c cs => rw [List.replicate_zero, List.nil_append, indentSize, Nat.add_zero, if_neg (lt_irrefl _)]
  | succ count ih =>
    rw [List.replicate_succ, List.cons_append, indentSize,
      if_pos (by exact_mod_cast Nat.lt_add_of_pos_right (by omega)),
      if_pos rfl, settle_natCast_add_one, Nat.add_comm count 1, ← Nat.add_assoc, ih, Nat.add_comm]

/-- Taking as many columns off a line as it has spaces at its start takes off these. -/
theorem text_dropColumns_spaces (tab : Rat) (count : Nat) {l : Line} {cs : List Char}
    (h : l.text = List.replicate count ' ' ++ cs) : (l.dropColumns tab count).text = cs := by
  have hsize := indentSize_spaces tab 0 count cs
  rw [Nat.zero_add] at hsize
  rw [dropColumns, drop, h]
  dsimp only
  rw [show indentSize tab count 0 _ = count from hsize]
  rw [List.drop_left' (List.length_replicate ..)]

theorem text_dropColumns_zero (tab : Rat) (l : Line) : (l.dropColumns tab 0).text = l.text := by
  have h : (l.dropColumns tab (0 : Nat)).text = l.text := text_dropColumns_spaces tab 0 rfl
  rwa [Nat.cast_zero] at h

theorem le_indent_spaces (htab : 0 < tab) {l : Line} {count : Nat} (hcount : count ≤ 2 ^ 53) {cs : List Char}
    (h : l.text = List.replicate count ' ' ++ cs) : (count : ℚ) ≤ l.indent tab := by
  have hspaces := indentFrom_spaces tab 0 count cs
  rw [Nat.zero_add] at hspaces
  rw [indent, h, show indentFrom tab 0 _ = _ from hspaces]
  exact le_indentFrom htab hcount (le_refl _) cs

theorem indentFrom_of_head {c : Char} (hc : Text.isBlank c = false) (tab column : Rat) (cs : List Char) :
    indentFrom tab column (c :: cs) = column := by
  unfold indentFrom
  rw [if_neg, if_neg]
  · rintro rfl
    exact absurd hc (by decide)
  · rintro rfl
    exact absurd hc (by decide)

theorem indent_of_head {l : Line} {c : Char} {cs : List Char} (h : l.text = c :: cs) (hc : Text.isBlank c = false)
    (tab : Rat) : l.indent tab = 0 := by
  rw [indent, h, indentFrom_of_head hc]

theorem trimStart_of_head {l : Line} {c : Char} {cs : List Char} (h : l.text = c :: cs)
    (hc : Text.isBlank c = false) : l.trimStart = l := by
  rw [trimStart, h, List.takeWhile_cons, hc]
  rfl

theorem isBlank_of_head {l : Line} {c : Char} {cs : List Char} (h : l.text = c :: cs) (hc : Text.isBlank c = false) :
    l.isBlank = false := by
  rw [isBlank, h, List.all_cons, hc, Bool.false_and]

end Scan.Line

end MarkdownTree
