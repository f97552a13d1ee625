import MarkdownTree.Proofs.Line
import MarkdownTree.Scan.Inline

/-!
# The content of lines and its source

Inline content is read from lines joined by line feeds, and `sourceOf` leads back from it.  For lines that come one
after the other (`Joined`) it is strictly increasing (`sourceOf_lt`), stays between the start of the first line and the
end of the last (`Joined.le_sourceOf`, `Joined.sourceOf_le`), and finds in the source the character that the content
has, unless that is a line feed (`getElem?_sourceOf`).
-/

namespace MarkdownTree.Scan

open Text

theorem contentOf_cons_cons (l m : Line) (ls : List Line) :
    contentOf (l :: m :: ls) = l.text ++ '\n' :: contentOf (m :: ls) := by
  simp [contentOf, join]

/-- Lines of a source that hold inline content: one after the other between two places. -/
structure Joined (source : List Char) (lo : Nat) (ls : List Line) (hi : Nat) : Prop where
  ne_nil : ls ≠ []
  stands : ∀ l ∈ ls, l.StandsIn source
  above : ∀ l ∈ ls, lo ≤ l.offset
  below : ∀ l ∈ ls, l.stop ≤ hi
  apart : ls.Pairwise fun a b => a.stop < b.offset

private theorem offset_le_sourceOf {l : Line} {ls : List Line}
    (h : (l :: ls).Pairwise fun a b => a.stop < b.offset) (index : Nat) : l.offset ≤ sourceOf (l :: ls) index := by
  induction ls generalizing l index with
  | nil => exact Nat.le_add_right _ _
  | cons m ls ih =>
    unfold sourceOf
    split
    · exact Nat.le_add_right _ _
    · have := ih h.of_cons (index - l.text.length - 1)
      have : l.stop < m.offset := List.rel_of_pairwise_cons h (.head _)
      unfold Line.stop at this
      omega

/-- Later places of the content come from later places of the source. -/
theorem sourceOf_lt {ls : List Line} (hne : ls ≠ []) (h : ls.Pairwise fun a b => a.stop < b.offset) {i j : Nat}
    (hij : i < j) : sourceOf ls i < sourceOf ls j := by
  induction ls generalizing i j with
  | nil => exact absurd rfl hne
  | cons l ls ih =>
    cases ls with
    | nil => exact Nat.add_lt_add_left hij _
    | cons m ls =>
      have hstop : l.stop < m.offset := List.rel_of_pairwise_cons h (.head _)
      have hnext := offset_le_sourceOf h.of_cons
      unfold Line.stop at hstop
      unfold sourceOf
      -- The earlier place cannot be behind a line that the later one is in.
      split <;> split
      · omega
      · have := hnext (j - l.text.length - 1)
        omega
      · omega
      · exact ih (by simp) h.of_cons (by omega)

theorem sourceOf_le_sourceOf {ls : List Line} (hne : ls ≠ []) (h : ls.Pairwise fun a b => a.stop < b.offset)
    {i j : Nat} (hij : i ≤ j) : sourceOf ls i ≤ sourceOf ls j := by
  rcases Nat.lt_or_eq_of_le hij with hlt | rfl
  · exact Nat.le_of_lt (sourceOf_lt hne h hlt)
  · exact Nat.le_refl _

private theorem sourceOf_le_stop {ls : List Line} (hne : ls ≠ []) {i : Nat} (hi : i ≤ (contentOf ls).length) :
    ∃ l ∈ ls, sourceOf ls i ≤ l.stop := by
  induction ls generalizing i with
  | nil => exact absurd rfl hne
  | cons l ls ih =>
    cases ls with
    | nil =>
      refine ⟨l, .head _, ?_⟩
      simp only [contentOf, List.map_cons, List.map_nil, join] at hi
      simp only [sourceOf, Line.stop]
      omega
    | cons m ls =>
      rw [contentOf_cons_cons, List.length_append, List.length_cons] at hi
      unfold sourceOf
      split
      · exact ⟨l, .head _, by unfold Line.stop; omega⟩
      · obtain ⟨x, hx, hle⟩ := ih (by simp) (i := i - l.text.length - 1) (by omega)
        exact ⟨x, .tail _ hx, hle⟩

/-- A line that stands in a source has its characters from there. -/
private theorem Line.StandsIn.getElem? {source : List Char} {l : Line} (h : l.StandsIn source) {i : Nat}
    (hi : i < l.text.length) : source[l.offset + i]? = l.text[i]? := by
  obtain ⟨rest, hrest⟩ := h.1
  rw [← List.getElem?_drop, ← hrest, List.getElem?_append_left hi]

/-- The places in the content of the line feeds that join its lines. -/
def joints : List Line → List Nat
  | [] => []
  | [_] => []
  | l :: ls => l.text.length :: (joints ls).map (l.text.length + 1 + ·)

private theorem mem_joints_cons_cons {l m : Line} {ls : List Line} {i : Nat} :
    i ∈ joints (l :: m :: ls) ↔ i = l.text.length ∨ ∃ j ∈ joints (m :: ls), l.text.length + 1 + j = i := by
  simp [joints]

/-- Line feeds join the lines. -/
private theorem getElem?_of_mem_joints {ls : List Line} {i : Nat} (h : i ∈ joints ls) :
    (contentOf ls)[i]? = some '\n' := by
  induction ls generalizing i with
  | nil => cases h
  | cons l ls ih =>
    cases ls with
    | nil => cases h
    | cons m ls =>
      rw [contentOf_cons_cons]
      rcases mem_joints_cons_cons.1 h with rfl | ⟨j, hj, rfl⟩
      · rw [List.getElem?_append_right (Nat.le_refl _), Nat.sub_self, List.getElem?_cons_zero]
      · rw [List.getElem?_append_right (by omega), show l.text.length + 1 + j - l.text.length = j + 1 by omega,
          List.getElem?_cons_succ, ih hj]

/-- The source has the characters of the content, but for the line feeds that join its lines. -/
theorem getElem?_sourceOf_of_notMem {source : List Char} {ls : List Line} (hstands : ∀ l ∈ ls, l.StandsIn source)
    {i : Nat} (hi : i < (contentOf ls).length) (hjoint : i ∉ joints ls) :
    source[sourceOf ls i]? = (contentOf ls)[i]? := by
  induction ls generalizing i with
  | nil => simp [contentOf, join] at hi
  | cons l ls ih =>
    have hl := hstands l (.head _)
    cases ls with
    | nil => exact hl.getElem? hi
    | cons m ls =>
      rw [mem_joints_cons_cons] at hjoint
      rw [contentOf_cons_cons] at hi ⊢
      rw [List.length_append, List.length_cons] at hi
      unfold sourceOf
      -- The line feed after the first line is a joint, so the place is before it or behind it.
      rcases Nat.lt_or_gt_of_ne (mt Or.inl hjoint) with hlt | hgt
      · rw [if_pos (Nat.le_of_lt hlt), hl.getElem? hlt, List.getElem?_append_left hlt]
      · obtain ⟨k, rfl⟩ := Nat.exists_eq_add_of_lt hgt
        have hk : l.text.length + k + 1 - l.text.length = k + 1 := by omega
        rw [if_neg (by omega), List.getElem?_append_right (by omega), hk, List.getElem?_cons_succ]
        exact ih (fun x hx => hstands x (.tail _ hx)) (by omega) fun hmem => hjoint (.inr ⟨k, hmem, by omega⟩)

/-- The source has the characters of the content, line feeds apart. -/
theorem getElem?_sourceOf {source : List Char} {ls : List Line} (hstands : ∀ l ∈ ls, l.StandsIn source) {i : Nat}
    {c : Char} (hi : (contentOf ls)[i]? = some c) (hc : c ≠ '\n') : source[sourceOf ls i]? = some c := by
  have hjoint : i ∉ joints ls := fun hmem => by
    rw [getElem?_of_mem_joints hmem] at hi
    exact hc (Option.some.inj hi).symm
  rw [getElem?_sourceOf_of_notMem hstands (List.getElem?_eq_some_iff.1 hi).1 hjoint, hi]

namespace Joined

variable {source : List Char} {lo hi : Nat} {ls : List Line}

private theorem le (h : Joined source lo ls hi) : lo ≤ hi := by
  obtain ⟨l, ls, rfl⟩ := List.exists_cons_of_ne_nil h.ne_nil
  exact (h.above l (.head _)).trans ((Nat.le_add_right _ _).trans (h.below l (.head _)))

theorem mono {hi' : Nat} (h : Joined source lo ls hi) (hhi : hi ≤ hi') : Joined source lo ls hi' :=
  ⟨h.ne_nil, h.stands, h.above, fun l hl => (h.below l hl).trans hhi, h.apart⟩

/-- A line in front of others that start after it. -/
theorem cons {mid : Nat} {l : Line} (h : Joined source mid ls hi) (hl : l.StandsIn source) (hlo : lo ≤ l.offset)
    (hstop : l.stop < mid) : Joined source lo (l :: ls) hi := by
  have hle := h.le
  have hoffset : l.offset ≤ l.stop := Nat.le_add_right _ _
  refine ⟨by simp, ?_, ?_, ?_, ?_⟩
  · exact List.forall_mem_cons.2 ⟨hl, h.stands⟩
  · exact List.forall_mem_cons.2 ⟨hlo, fun x hx => by have := h.above x hx; omega⟩
  · exact List.forall_mem_cons.2 ⟨by omega, h.below⟩
  · exact List.pairwise_cons.2 ⟨fun x hx => by have := h.above x hx; omega, h.apart⟩

theorem le_sourceOf (h : Joined source lo ls hi) (i : Nat) : lo ≤ sourceOf ls i := by
  obtain ⟨l, ls, rfl⟩ := List.exists_cons_of_ne_nil h.ne_nil
  exact (h.above l (.head _)).trans (offset_le_sourceOf h.apart i)

theorem sourceOf_le (h : Joined source lo ls hi) {i : Nat} (hlen : i ≤ (contentOf ls).length) :
    sourceOf ls i ≤ hi := by
  obtain ⟨l, hl, hle⟩ := sourceOf_le_stop h.ne_nil hlen
  exact hle.trans (h.below l hl)

end Joined

end MarkdownTree.Scan
