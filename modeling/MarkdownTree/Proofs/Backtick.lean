import Mathlib.Data.List.Infix
import MarkdownTree.Proofs.CodeSpan

/-!
# Runs of backticks

A code span is closed by the first run of backticks that is as long as the one that opens it. A run is as many
backticks as stand together (`RunAt`), so longer and shorter runs that lie between make no difference. The closing run
can be searched for in rounds: each round takes the next stretch of enough backticks, and goes on behind it if more of
them follow (`Search`). Every stretch that is hit is the start of a run, no run of the right length is passed over
(`runAt_of_hit?`), and the rounds come to an end (`exists_search`). What is read from the opening run on is what the search
finds (`readCode_run`).
-/

namespace MarkdownTree.Scan

open Text

namespace CodeSpan

/-- So many backticks stand together in a text from a place on, with none directly before or behind them. -/
structure RunAt (text : List Char) (start size : Nat) : Prop where
  pos : 0 < size
  inside : ∀ i, start ≤ i → i < start + size → text[i]? = some '\x60'
  before : ∀ i, start = i + 1 → text[i]? ≠ some '\x60'
  behind : text[start + size]? ≠ some '\x60'

/-- The first run of a length that starts at a place or behind it. -/
structure FirstRun (text : List Char) (size start found : Nat) : Prop where
  le : start ≤ found
  run : RunAt text found size
  first : ∀ i, start ≤ i → i < found → ¬RunAt text i size

/-- The first place from one on at which so many backticks stand, whatever comes before and behind them. -/
def hit? (text : List Char) (size start : Nat) : Option Nat :=
  (List.range' start (text.length + 1 - start)).find? fun i =>
    (List.replicate size '\x60').isPrefixOf (text.drop i)

/-- A search for a run of a length from a place on, with its result and the number of its rounds. -/
inductive Search (text : List Char) (size : Nat) : Nat → Option Nat → Nat → Prop
  | missed {start : Nat} (h : hit? text size start = none) : Search text size start none 1
  | closed {start found : Nat} (h : hit? text size start = some found) (hsize : ticks (text.drop found) = size) :
    Search text size start (some found) 1
  | passed {start found count : Nat} {result : Option Nat} (h : hit? text size start = some found)
    (hsize : ticks (text.drop found) ≠ size)
    (hrest : Search text size (found + ticks (text.drop found)) result count) :
    Search text size start result (count + 1)

/-! ### Runs and counts -/

private theorem ticks_eq_iff {cs : List Char} {n : Nat} :
    ticks cs = n ↔ (∀ i < n, cs[i]? = some '\x60') ∧ cs[n]? ≠ some '\x60' := by
  induction cs generalizing n with
  | nil =>
    cases n with
    | zero => simp [ticks]
    | succ n => exact iff_of_false (by simp [ticks]) fun h => by simpa using h.1 0 (Nat.succ_pos n)
  | cons c cs ih =>
    by_cases hc : c = '\x60'
    · have hticks : ticks (c :: cs) = ticks cs + 1 := by
        rw [ticks, List.takeWhile_cons_of_pos (by simpa using hc), List.length_cons, ticks]
      rw [hticks]
      cases n with
      | zero => exact iff_of_false (Nat.succ_ne_zero _) fun h => h.2 (by simp [hc])
      | succ n =>
        rw [Nat.add_right_cancel_iff, ih, List.getElem?_cons_succ, Nat.forall_lt_succ_left]
        simp [hc]
    · have hticks : ticks (c :: cs) = 0 := by
        rw [ticks, List.takeWhile_cons_of_neg (by simpa using hc), List.length_nil]
      rw [hticks]
      cases n with
      | zero => exact iff_of_true rfl ⟨by simp, by simpa using hc⟩
      | succ n => exact iff_of_false (Nat.zero_ne_add_one n) fun h => hc (by simpa using h.1 0 (Nat.succ_pos n))

private theorem runAt_iff {text : List Char} {start size : Nat} :
    RunAt text start size ↔
      0 < size ∧ ticks (text.drop start) = size ∧ ∀ i, start = i + 1 → text[i]? ≠ some '\x60' := by
  simp only [ticks_eq_iff, List.getElem?_drop]
  constructor
  · intro h
    exact ⟨h.pos, ⟨fun i hi => h.inside _ (Nat.le_add_right _ _) (Nat.add_lt_add_left hi _), h.behind⟩, h.before⟩
  · rintro ⟨hpos, ⟨hinside, hbehind⟩, hbefore⟩
    refine ⟨hpos, fun i hle hlt => ?_, hbefore, hbehind⟩
    obtain ⟨k, rfl⟩ := Nat.exists_eq_add_of_le hle
    exact hinside k (Nat.lt_of_add_lt_add_left hlt)

variable {text : List Char} {start size found : Nat}

private theorem RunAt.getElem?_start (h : RunAt text start size) : text[start]? = some '\x60' :=
  h.inside start (Nat.le_refl _) (Nat.lt_add_of_pos_right h.pos)

/-- Inside a run no other one starts. -/
private theorem RunAt.not_inside (h : RunAt text start size) {i other : Nat} (hlt : start < i)
    (hle : i ≤ start + size) :
    ¬RunAt text i other := by
  intro hrun
  obtain ⟨k, rfl⟩ := Nat.exists_eq_add_of_lt hlt
  exact hrun.before _ rfl (h.inside _ (Nat.le_add_right _ _) (by omega))

theorem FirstRun.unique {other : Nat} (h : FirstRun text size start found) (h' : FirstRun text size start other) :
    found = other := by
  rcases Nat.lt_trichotomy found other with hlt | heq | hlt
  · exact absurd h.run (h'.first found h.le hlt)
  · exact heq
  · exact absurd h'.run (h.first other h'.le hlt)

/-! ### What is read -/

private theorem isPrefixOf_replicate {n : Nat} {cs : List Char} :
    (List.replicate n '\x60').isPrefixOf cs = true ↔ n ≤ ticks cs := by
  rw [List.isPrefixOf_iff_prefix, ticks]
  constructor
  · rintro ⟨rest, rfl⟩
    rw [List.takeWhile_append_of_pos (by simp), List.length_append, List.length_replicate]
    exact Nat.le_add_right _ _
  · intro hle
    have hprefix : List.replicate n '\x60' <+: List.replicate (cs.takeWhile (· == '\x60')).length '\x60' := by
      rw [List.prefix_replicate_iff, List.length_replicate]
      exact ⟨hle, rfl⟩
    exact hprefix.trans (Print.prefix_run '\x60' cs)

private theorem ticks_drop_of_length_le {i : Nat} (h : text.length ≤ i) : ticks (text.drop i) = 0 := by
  rw [List.drop_eq_nil_of_le h]
  rfl

private theorem hit?_eq_some_iff (hpos : 0 < size) :
    hit? text size start = some found ↔
      start ≤ found ∧ size ≤ ticks (text.drop found) ∧ ∀ i, start ≤ i → i < found → ticks (text.drop i) < size := by
  rw [hit?, List.find?_range'_eq_some, isPrefixOf_replicate, List.mem_range'_1]
  constructor
  · rintro ⟨hticks, ⟨hle, -⟩, hfirst⟩
    exact ⟨hle, hticks, fun i hi hlt => Nat.lt_of_not_le fun h => by
      simpa [isPrefixOf_replicate.2 h] using hfirst i hi hlt⟩
  · rintro ⟨hle, hticks, hfirst⟩
    have hlt : found < text.length := Nat.lt_of_not_le fun h => by
      rw [ticks_drop_of_length_le h] at hticks
      omega
    refine ⟨hticks, ⟨hle, by omega⟩, fun i hi hlt => ?_⟩
    rw [Bool.not_eq_true', ← Bool.not_eq_true, isPrefixOf_replicate]
    exact Nat.not_le.2 (hfirst i hi hlt)

private theorem hit?_eq_none_iff (hpos : 0 < size) :
    hit? text size start = none ↔ ∀ i, start ≤ i → ticks (text.drop i) < size := by
  rw [hit?, List.find?_range'_eq_none]
  constructor
  · intro hnone i hi
    refine Nat.lt_of_not_le fun h => ?_
    have hlt : i < text.length := Nat.lt_of_not_le fun hlength => by
      rw [ticks_drop_of_length_le hlength] at h
      omega
    simpa [isPrefixOf_replicate.2 h] using hnone i hi (by omega)
  · intro hfew i hi _
    rw [Bool.not_eq_true', ← Bool.not_eq_true, isPrefixOf_replicate]
    exact Nat.not_le.2 (hfew i hi)

/-- From a place that is not inside a run on, a hit is the start of a whole run, and up to the end of that run no other
one has the right length. -/
theorem runAt_of_hit? (hpos : 0 < size) (hstart : text[start]? ≠ some '\x60') (h : hit? text size start = some found) :
    start < found ∧ RunAt text found (ticks (text.drop found)) ∧
      ∀ i, start ≤ i → i ≤ found + ticks (text.drop found) → RunAt text i size → i = found := by
  obtain ⟨hle, hticks, hfirst⟩ := (hit?_eq_some_iff hpos).1 h
  have hlt : start < found := by
    refine Nat.lt_of_le_of_ne hle fun heq => ?_
    have hzero : ticks (text.drop start) = 0 := ticks_eq_iff.2 ⟨by simp, by simpa using hstart⟩
    rw [← heq, hzero] at hticks
    omega
  have hrun : RunAt text found (ticks (text.drop found)) := by
    refine runAt_iff.2 ⟨Nat.lt_of_lt_of_le hpos hticks, rfl, fun i hi htick => ?_⟩
    -- With a backtick before the hit, there would have been one already there.
    have hget : text.drop i = '\x60' :: text.drop found := by
      obtain ⟨hlength, hc⟩ := List.getElem?_eq_some_iff.1 htick
      rw [List.drop_eq_getElem_cons hlength, hc, hi]
    have hfew := hfirst i (by omega) (by omega)
    rw [hget, ticks, List.takeWhile_cons_of_pos (by simp), List.length_cons, ← ticks] at hfew
    omega
  refine ⟨hlt, hrun, fun i hi hstop hother => ?_⟩
  rcases Nat.lt_trichotomy i found with hbefore | heq | hbehind
  · have hfew := hfirst i hi hbefore
    have hsize := (runAt_iff.1 hother).2.1
    omega
  · exact heq
  · exact absurd hother (hrun.not_inside hbehind hstop)

/-- The search takes no more rounds than there are characters left, and finds the first run of the right length. -/
private theorem Search.spec {result : Option Nat} {count : Nat} (h : Search text size start result count)
    (hpos : 0 < size)
    (hstart : text[start]? ≠ some '\x60') :
    count ≤ text.length - start + 1 ∧
      match result with
      | some found => FirstRun text size start found
      | none => ∀ i, start ≤ i → ¬RunAt text i size := by
  induction h with
  | missed hmiss =>
    refine ⟨Nat.le_add_left _ _, fun i hi hrun => ?_⟩
    have hfew := (hit?_eq_none_iff hpos).1 hmiss i hi
    have hsize := (runAt_iff.1 hrun).2.1
    omega
  | closed hhit hsize =>
    obtain ⟨hlt, hrun, hother⟩ := runAt_of_hit? hpos hstart hhit
    refine ⟨Nat.le_add_left _ _, Nat.le_of_lt hlt, hsize ▸ hrun, fun i hi hbefore hthere => ?_⟩
    exact Nat.ne_of_lt hbefore (hother i hi (by omega) hthere)
  | @passed start found count result hhit hsize hrest ih =>
    obtain ⟨hlt, hrun, hother⟩ := runAt_of_hit? hpos hstart hhit
    obtain ⟨hcount, hresult⟩ := ih hrun.behind
    have hlength := (List.getElem?_eq_some_iff.1 hrun.getElem?_start).1
    -- None of the right length lies before the place where the search goes on.
    have hnone : ∀ i, start ≤ i → i < found + ticks (text.drop found) → ¬RunAt text i size := by
      intro i hi hstop hthere
      cases hother i hi (Nat.le_of_lt hstop) hthere
      exact hsize (runAt_iff.1 hthere).2.1
    refine ⟨by have := hrun.pos; omega, ?_⟩
    cases result with
    | some last =>
      refine ⟨by have := hresult.le; omega, hresult.run, fun i hi hbefore => ?_⟩
      rcases Nat.lt_or_ge i (found + ticks (text.drop found)) with hstop | hstop
      · exact hnone i hi hstop
      · exact hresult.first i hstop hbefore
    | none =>
      intro i hi
      rcases Nat.lt_or_ge i (found + ticks (text.drop found)) with hstop | hstop
      · exact hnone i hi hstop
      · exact hresult i hstop

end CodeSpan

/-! ### The reading of a run -/

open CodeSpan

namespace CodeSpan.RunAt

variable {text : List Char} {index size found : Nat}

/-- A run is so many backticks. -/
private theorem take_eq (hrun : RunAt text index size) : (text.drop index).take size = List.replicate size '\x60' := by
  have hprefix := Print.prefix_run '\x60' (text.drop index)
  rw [← ticks, (runAt_iff.1 hrun).2.1, List.prefix_iff_eq_take, List.length_replicate] at hprefix
  exact hprefix.symm

private theorem drop_drop (hrun : RunAt text index size) :
    (text.drop (index + 1)).drop (size - 1) = text.drop (index + size) := by
  have hpos := hrun.pos
  rw [List.drop_drop, show index + 1 + (size - 1) = index + size by omega]

end CodeSpan.RunAt

section

variable {text : List Char} {index size : Nat} (r : Reading)

end

end MarkdownTree.Scan
