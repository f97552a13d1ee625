import Mathlib.Data.List.Infix
import MarkdownTree.Proofs.Trim
import MarkdownTree.Scan.Sign

/-!
# Lines of a source

The lines that a reader holds, at whatever depth, are ends of lines of the source: only their fronts have been cut off
(`EndOf`).  So they stand in the source at their offsets and come one after the other; `Fit` says this of a row of lines
together with bounds for what they say.  The lines of a text fit it (`fit_linesOf`), and so do the ends of lines that
fit (`Fit.ends`), one part of a row and the rest of it (`Fit.split`).
-/

namespace MarkdownTree.Scan

open Text

namespace Line

/-- The line is what the source says at its offset. -/
def StandsIn (source : List Char) (l : Line) : Prop :=
  l.text <+: source.drop l.offset ∧ l.stop ≤ source.length

/-- A line that stands in a source does so without some of its last characters. -/
theorem StandsIn.init {source cs : List Char} {l : Line} (h : l.StandsIn source) (hcs : cs <+: l.text) :
    StandsIn source ⟨cs, l.offset⟩ :=
  ⟨hcs.trans h.1, (Nat.add_le_add_left hcs.length_le _).trans h.2⟩

/-- A line without some of its first characters. -/
def EndOf (inner outer : Line) : Prop :=
  ∃ n ≤ outer.text.length, inner = outer.drop n

namespace EndOf

variable {a b c : Line}

theorem refl (l : Line) : l.EndOf l :=
  ⟨0, Nat.zero_le _, by simp [drop]⟩

theorem trans (hab : a.EndOf b) (hbc : b.EndOf c) : a.EndOf c := by
  obtain ⟨m, hm, rfl⟩ := hab
  obtain ⟨n, hn, rfl⟩ := hbc
  refine ⟨n + m, ?_, ?_⟩
  · simp only [drop, List.length_drop] at hm
    omega
  · simp [drop, List.drop_drop, Nat.add_assoc]

theorem stop_eq (h : a.EndOf b) : a.stop = b.stop := by
  obtain ⟨n, hn, rfl⟩ := h
  simp only [drop, stop, List.length_drop]
  omega

theorem offset_le (h : a.EndOf b) : b.offset ≤ a.offset := by
  obtain ⟨n, -, rfl⟩ := h
  simp [drop]

theorem standsIn {source : List Char} (h : a.EndOf b) (hb : b.StandsIn source) : a.StandsIn source := by
  refine ⟨?_, h.stop_eq ▸ hb.2⟩
  obtain ⟨n, -, rfl⟩ := h
  show b.text.drop n <+: source.drop (b.offset + n)
  rw [← List.drop_drop]
  exact List.IsPrefix.drop hb.1 n

/-- A line that says something ends where it did before its front was cut off. -/
theorem contentStop_eq (h : a.EndOf b) (ha : a.isBlank = false) : a.contentStop = b.contentStop := by
  obtain ⟨n, -, rfl⟩ := h
  -- Something is left of the line, so the front that is gone was shorter than the line without the blanks at its end.
  have hne : Text.trimEnd (b.text.drop n) ≠ [] := trimEnd_ne_nil ha
  have hlen := List.length_pos_of_ne_nil hne
  simp only [Text.trimEnd, dropEndWhile_drop, List.length_drop] at hlen
  simp only [contentStop, drop, Text.trimEnd, dropEndWhile_drop, List.length_drop]
  omega

theorem not_blank (h : a.EndOf b) (ha : a.isBlank = false) : b.isBlank = false := by
  obtain ⟨n, -, rfl⟩ := h
  rw [isBlank, List.all_eq_false] at ha ⊢
  obtain ⟨c, hc, hb⟩ := ha
  exact ⟨c, List.mem_of_mem_drop hc, hb⟩

end EndOf

theorem drop_endOf {l : Line} {n : Nat} (h : n ≤ l.text.length) : (l.drop n).EndOf l :=
  ⟨n, h, rfl⟩

theorem trimStart_endOf (l : Line) : l.trimStart.EndOf l :=
  drop_endOf (List.takeWhile_sublist _).length_le

/-- Nothing at the end of a line. -/
theorem stop_endOf (l : Line) : EndOf ⟨[], l.stop⟩ l :=
  ⟨l.text.length, Nat.le_refl _, by simp [drop, stop]⟩

/-- Indentation is blank. -/
private theorem indentSize_le (tab columns column : Rat) (cs : List Char) :
    indentSize tab columns column cs ≤ (cs.takeWhile Text.isBlank).length := by
  induction cs generalizing column with
  | nil => simp [indentSize]
  | cons c cs ih =>
    unfold indentSize
    split
    · split
      · rename_i hc
        subst hc
        exact Nat.succ_le_succ (ih _)
      · split
        · rename_i hc
          subst hc
          exact Nat.succ_le_succ (ih _)
        · exact Nat.zero_le _
    · exact Nat.zero_le _

theorem dropColumns_endOf (tab columns : Rat) (l : Line) : (l.dropColumns tab columns).EndOf l :=
  drop_endOf ((indentSize_le tab columns 0 l.text).trans (List.takeWhile_sublist _).length_le)

theorem dropColumns_offset_le (tab columns : Rat) (l : Line) :
    (l.dropColumns tab columns).offset ≤ l.trimStart.offset :=
  Nat.add_le_add_left (indentSize_le tab columns 0 l.text) _

theorem contentStop_le (l : Line) : l.contentStop ≤ l.stop :=
  Nat.add_le_add_left (length_dropEndWhile_le _ _) _

/-- A line that says something starts before it ends. -/
theorem offset_lt_contentStop {l : Line} (h : l.isBlank = false) : l.offset < l.contentStop := by
  have := List.length_pos_of_ne_nil (trimEnd_ne_nil h)
  unfold contentStop
  omega

theorem trimStart_text (l : Line) : l.trimStart.text = Text.trimStart l.text :=
  drop_length_takeWhile _ _

theorem trimStart_not_blank {l : Line} (h : l.isBlank = false) : l.trimStart.isBlank = false := by
  obtain ⟨c, hc, hb⟩ := List.all_eq_false.1 h
  refine List.all_eq_false.2 ⟨c, ?_, hb⟩
  rw [trimStart_text]
  have hmem : c ∈ l.text.takeWhile Text.isBlank ++ l.text.dropWhile Text.isBlank := by
    rw [List.takeWhile_append_dropWhile]
    exact hc
  rcases List.mem_append.1 hmem with hc | hc
  · exact absurd (List.mem_takeWhile_imp hc) hb
  · exact hc

theorem exists_outer {ms ls : List Line} (h : List.Forall₂ EndOf ms ls) {l : Line} (hl : l ∈ ms) :
    ∃ outer ∈ ls, l.EndOf outer := by
  induction h with
  | nil => cases hl
  | cons hab _ ih =>
    rcases hl with _ | ⟨_, hl⟩
    · exact ⟨_, .head _, hab⟩
    · obtain ⟨outer, hmem, hend⟩ := ih hl
      exact ⟨outer, .tail _ hmem, hend⟩

/-! ### Rows of lines -/

/-- Lines of a source, one after the other: they start at `lo` or later, and what they say ends at `hi` or before. -/
structure Fit (source : List Char) (lo : Nat) (ls : List Line) (hi : Nat) : Prop where
  le : lo ≤ hi
  stands : ∀ l ∈ ls, l.StandsIn source
  above : ∀ l ∈ ls, lo ≤ l.offset
  below : ∀ l ∈ ls, l.isBlank = false → l.contentStop ≤ hi
  apart : ls.Pairwise fun a b => a.stop < b.offset

namespace Fit

variable {source : List Char} {lo hi : Nat} {l : Line} {ls ms : List Line}

theorem nil (h : lo ≤ hi) : Fit source lo [] hi :=
  ⟨h, by simp, by simp, by simp, by simp⟩

theorem tail (h : Fit source lo (l :: ls) hi) : Fit source lo ls hi :=
  ⟨h.le, fun x hx => h.stands x (.tail _ hx), fun x hx => h.above x (.tail _ hx),
    fun x hx => h.below x (.tail _ hx), h.apart.of_cons⟩

theorem sublist (h : Fit source lo ls hi) (hs : List.Sublist ms ls) : Fit source lo ms hi :=
  ⟨h.le, fun x hx => h.stands x (hs.subset hx), fun x hx => h.above x (hs.subset hx),
    fun x hx => h.below x (hs.subset hx), h.apart.sublist hs⟩

/-- A line in front of others that start after it. -/
private theorem cons {mid : Nat} (h : Fit source mid ls hi) (hl : l.StandsIn source) (hlo : lo ≤ l.offset)
    (hstop : l.stop < mid) : Fit source lo (l :: ls) hi := by
  have hle := h.le
  have hcontent := contentStop_le l
  have hoffset : l.offset ≤ l.stop := Nat.le_add_right _ _
  refine ⟨by omega, ?_, ?_, ?_, List.pairwise_cons.2 ⟨fun x hx => ?_, h.apart⟩⟩
  · rintro x (_ | ⟨_, hx⟩)
    · exact hl
    · exact h.stands x hx
  · rintro x (_ | ⟨_, hx⟩)
    · exact hlo
    · have := h.above x hx
      omega
  · rintro x (_ | ⟨_, hx⟩) hb
    · omega
    · exact h.below x hx hb
  · have := h.above x hx
    omega

/-- The same lines between other bounds. -/
theorem between (h : Fit source lo ls hi) {lo' hi' : Nat} (hle : lo' ≤ hi') (hlo : ∀ x ∈ ls, lo' ≤ x.offset)
    (hhi : ∀ x ∈ ls, x.isBlank = false → x.contentStop ≤ hi') : Fit source lo' ls hi' :=
  ⟨hle, h.stands, hlo, hhi, h.apart⟩

/-- Ends of lines that fit do so between the same bounds. -/
theorem ends (h : Fit source lo ls hi) (he : List.Forall₂ EndOf ms ls) : Fit source lo ms hi := by
  induction he with
  | nil => exact h
  | @cons a b as bs hab htail ih =>
    have hrest := ih h.tail
    refine ⟨h.le, ?_, ?_, ?_, ?_⟩
    · rintro x (_ | ⟨_, hx⟩)
      · exact hab.standsIn (h.stands b (.head _))
      · exact hrest.stands x hx
    · rintro x (_ | ⟨_, hx⟩)
      · exact (h.above b (.head _)).trans hab.offset_le
      · exact hrest.above x hx
    · rintro x (_ | ⟨_, hx⟩) hb
      · exact hab.contentStop_eq hb ▸ h.below b (.head _) (hab.not_blank hb)
      · exact hrest.below x hx hb
    · -- Ends stop where their lines do and start no earlier, so they stay apart.
      refine List.pairwise_cons.2 ⟨fun x hx => ?_, hrest.apart⟩
      obtain ⟨y, hy, hxy⟩ := exists_outer htail hx
      have := List.rel_of_pairwise_cons h.apart hy
      have := hxy.offset_le
      have := hab.stop_eq
      omega

/-- A row that fits splits into two that do, one between the lower bound and a place, the other from there on. -/
theorem split (h : Fit source lo (ls ++ ms) hi) : ∃ mid, Fit source lo ls mid ∧ Fit source mid ms hi := by
  induction ls generalizing lo with
  | nil => exact ⟨lo, .nil (Nat.le_refl _), h⟩
  | cons l ls ih =>
    -- A blank line leaves the lower bound where it is, as blank lines may end beyond the upper one.
    obtain ⟨next, hnext, hlo, hrest⟩ : ∃ next, (l.isBlank = false → l.contentStop ≤ next) ∧ lo ≤ next ∧
        Fit source next (ls ++ ms) hi := by
      cases hb : l.isBlank with
      | true => exact ⟨lo, by simp, Nat.le_refl _, h.tail⟩
      | false =>
        have hl := h.below l (by simp) hb
        have := h.above l (by simp)
        have := offset_lt_contentStop hb
        refine ⟨l.contentStop, fun _ => Nat.le_refl _, by omega,
          h.tail.between hl (fun x hx => ?_) h.tail.below⟩
        have := List.rel_of_pairwise_cons h.apart hx
        have := contentStop_le l
        omega
    obtain ⟨mid, hfirst, hsecond⟩ := ih hrest
    refine ⟨mid, ⟨hlo.trans hfirst.le, ?_, ?_, ?_, ?_⟩, hsecond⟩
    · exact fun x hx => h.stands x (List.mem_append_left ms hx)
    · exact fun x hx => h.above x (List.mem_append_left ms hx)
    · rintro x (_ | ⟨_, hx⟩) hb
      · exact (hnext hb).trans hfirst.le
      · exact hfirst.below x hx hb
    · exact (List.pairwise_append.1 h.apart).1

end Fit

/-! ### The lines of a text -/

theorem prefix_dropReturn (cs : List Char) : dropReturn cs <+: cs := by
  unfold dropReturn
  split
  · exact List.dropLast_prefix cs
  · exact List.prefix_rfl

private theorem numberLines_append (offset : Nat) (ps qs : List (List Char)) :
    numberLines offset ps <+: numberLines offset (ps ++ qs) := by
  induction ps generalizing offset with
  | nil => exact List.nil_prefix
  | cons p ps ih => exact List.cons_prefix_cons.2 ⟨rfl, ih _⟩

/-- A numbered part stands in its source: only a carriage return at its end is missing. -/
private theorem part_standsIn {source pre part : List Char} (post : List Char) (h : source = pre ++ part ++ post) :
    StandsIn source ⟨dropReturn part, pre.length⟩ := by
  have hp := prefix_dropReturn part
  have := hp.length_le
  constructor
  · rw [h, List.append_assoc, List.drop_left]
    exact hp.trans (List.prefix_append _ _)
  · simp only [stop, h, List.length_append]
    omega

private theorem fit_numberLines {source : List Char} (pre : List Char) {parts : List (List Char)}
    (h : source = pre ++ join ['\n'] parts) : Fit source pre.length (numberLines pre.length parts) source.length := by
  induction parts generalizing pre with
  | nil => exact .nil (by simp [h])
  | cons part parts ih =>
    cases parts with
    | nil =>
      have hl : StandsIn source ⟨dropReturn part, pre.length⟩ := part_standsIn [] (by simpa [join] using h)
      refine ⟨by simp [h], ?_, ?_, ?_, by simp [numberLines]⟩
        <;> simp only [numberLines, List.mem_singleton, forall_eq]
      · exact hl
      · exact Nat.le_refl _
      · exact fun _ => (contentStop_le _).trans hl.2
    | cons next parts =>
      have hl : StandsIn source ⟨dropReturn part, pre.length⟩ :=
        part_standsIn ('\n' :: join ['\n'] (next :: parts)) (by simpa [join] using h)
      have hrest : Fit source (pre.length + part.length + 1)
          (numberLines (pre.length + part.length + 1) (next :: parts)) source.length := by
        have := ih (pre ++ part ++ ['\n']) (by simpa [join] using h)
        simpa [Nat.add_assoc] using this
      have hstop : stop ⟨dropReturn part, pre.length⟩ < pre.length + part.length + 1 := by
        have := (prefix_dropReturn part).length_le
        simp only [stop]
        omega
      exact hrest.cons hl (Nat.le_refl _) hstop

/-- The lines of a text fit it. -/
theorem fit_linesOf (text : List Char) : Fit text 0 (linesOf text) text.length := by
  have hall : Fit text 0 (numberLines 0 (fields '\n' text)) text.length :=
    fit_numberLines [] (join_fields '\n' text).symm
  refine hall.sublist (List.IsPrefix.sublist ?_)
  simp only [linesOf]
  split
  · conv => rhs; rw [← List.dropLast_append_getLast (fields_ne_nil '\n' text)]
    exact numberLines_append 0 _ _
  · exact List.prefix_rfl

end Line

end MarkdownTree.Scan
