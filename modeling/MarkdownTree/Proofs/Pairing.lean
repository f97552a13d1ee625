import Mathlib.Algebra.GroupWithZero.Nat
import Mathlib.Data.List.Forall2
import Mathlib.Logic.Relation
import MarkdownTree.Proofs.Emphasis

/-!
# Which delimiters pair

Resolving emphasis goes by steps, each of which makes one node of delimiters that two runs still have (`Paired`).
Among the pieces before the closer no run can open what a later one closes (`Exhausted`).  Every step keeps this, so
nothing is left to pair inside a new node, and nothing in the end (`resolve_exhausted`).
-/

namespace MarkdownTree.Scan

namespace Run

/-- The first run can open emphasis that the second closes. -/
structure Matches (opener closer : Run) : Prop where
  mark : opener.mark = closer.mark
  canOpen : opener.canOpen = true
  canClose : closer.canClose = true
  three : opener.canClose = true ∨ closer.canOpen = true → 3 ∣ opener.initial + closer.initial →
    3 ∣ opener.initial ∧ 3 ∣ closer.initial

private theorem excludes_eq_false_iff {opener closer : Run} :
    opener.excludes closer = false ↔
      (opener.canClose = true ∨ closer.canOpen = true → 3 ∣ opener.initial + closer.initial →
        3 ∣ opener.initial ∧ 3 ∣ closer.initial) := by
  rw [← Bool.not_eq_true]
  simp only [excludes, Bool.and_eq_true, Bool.or_eq_true, Bool.not_eq_true', Bool.and_eq_false_iff, beq_iff_eq,
    beq_eq_false_iff_ne, Nat.dvd_iff_mod_eq_zero]
  tauto

theorem pairs_iff {opener closer : Run} (hclose : closer.canClose = true) :
    opener.pairs closer = true ↔ 0 < opener.count ∧ opener.Matches closer := by
  simp only [pairs, Bool.and_eq_true, Bool.not_eq_true', beq_iff_eq, decide_eq_true_eq, excludes_eq_false_iff]
  constructor
  · rintro ⟨⟨⟨hmark, hopen⟩, hcount⟩, hthree⟩
    exact ⟨hcount, hmark, hopen, hclose, hthree⟩
  · rintro ⟨hcount, hmark, hopen, -, hthree⟩
    exact ⟨⟨⟨hmark, hopen⟩, hcount⟩, hthree⟩

/-- The run is what is left of another one when delimiters are taken from its ends. -/
structure LeftOf (r whole : Run) : Prop where
  mark : r.mark = whole.mark
  initial : r.initial = whole.initial
  canOpen : r.canOpen = whole.canOpen
  canClose : r.canClose = whole.canClose
  start : whole.start ≤ r.start
  stop : r.stop ≤ whole.stop
  size : whole.stop = whole.start + whole.count → r.stop = r.start + r.count

instance : Std.Refl LeftOf :=
  ⟨fun _ => ⟨rfl, rfl, rfl, rfl, Nat.le_refl _, Nat.le_refl _, id⟩⟩

instance : IsTrans Run LeftOf :=
  ⟨fun _ _ _ h h' => ⟨h.mark.trans h'.mark, h.initial.trans h'.initial, h.canOpen.trans h'.canOpen,
    h.canClose.trans h'.canClose, h'.start.trans h.start, h.stop.trans h'.stop, h.size ∘ h'.size⟩⟩

private theorem leftOf_takeEnd {r : Run} {n : Nat} (hn : n ≤ r.count) : (r.takeEnd n).LeftOf r := by
  refine ⟨rfl, rfl, rfl, rfl, Nat.le_refl _, Nat.sub_le _ _, ?_⟩
  simp only [takeEnd]
  omega

private theorem leftOf_takeStart {r : Run} {n : Nat} (hn : n ≤ r.count) : (r.takeStart n).LeftOf r := by
  refine ⟨rfl, rfl, rfl, rfl, Nat.le_add_right _ _, Nat.le_refl _, ?_⟩
  simp only [takeStart]
  omega

/-- The parts of runs match as the runs do: the rule of three looks at the initial lengths. -/
theorem LeftOf.matches_iff {opener closer o c : Run} (ho : opener.LeftOf o) (hc : closer.LeftOf c) :
    opener.Matches closer ↔ o.Matches c := by
  constructor
  · rintro ⟨hmark, hopen, hclose, hthree⟩
    rw [ho.initial, ho.canClose, hc.initial, hc.canOpen] at hthree
    exact ⟨by rw [← ho.mark, hmark, hc.mark], ho.canOpen ▸ hopen, hc.canClose ▸ hclose, hthree⟩
  · rintro ⟨hmark, hopen, hclose, hthree⟩
    rw [← ho.initial, ← ho.canClose, ← hc.initial, ← hc.canOpen] at hthree
    exact ⟨by rw [ho.mark, hmark, hc.mark], ho.canOpen ▸ hopen, hc.canClose ▸ hclose, hthree⟩

end Run

namespace Emphasis

/-- The runs of a row of pieces. -/
def runs (ps : List Piece) : List Run :=
  ps.filterMap fun
    | .run r => some r
    | _ => none

@[simp] theorem runs_append (ps qs : List Piece) : runs (ps ++ qs) = runs ps ++ runs qs :=
  List.filterMap_append

@[simp] theorem runs_run (r : Run) (ps : List Piece) : runs (.run r :: ps) = r :: runs ps :=
  rfl

@[simp] theorem runs_node (start stop : Nat) (content : Content) (children ps : List Piece) :
    runs (.node start stop content children :: ps) = runs ps :=
  rfl

/-- How many delimiters the runs of a row still have. -/
def delimiters (ps : List Piece) : Nat :=
  ((runs ps).map Run.count).sum

/-- Two pieces, the second one later, that are no runs with delimiters left to pair. -/
def Unpaired : Piece → Piece → Prop
  | .run opener, .run closer => 0 < opener.count → 0 < closer.count → ¬opener.Matches closer
  | _, _ => True

/-- No run has delimiters left to pair with those of a later one. -/
def Exhausted (ps : List Piece) : Prop :=
  ps.Pairwise Unpaired

/-- The row with a node that is made of delimiters of two runs and of what stands between them.  The runs are left of
two of the given ones, the first of which comes first and can open what the second closes.  One delimiter of each makes
emphasis, and two make strong emphasis when both have two. -/
inductive Paired (given : List Piece) : List Piece → List Piece → Prop
  | pair {before between after : List Piece} {opener closer o c : Run} {n : Nat}
    (hgiven : [o, c].Sublist (runs given)) (hopener : opener.LeftOf o) (hcloser : closer.LeftOf c)
    (hmatch : o.Matches c) (hopen : n ≤ opener.count) (hclose : n ≤ closer.count)
    (hn : n = 2 ∨ n = 1 ∧ (opener.count = 1 ∨ closer.count = 1)) (hbetween : Exhausted between) :
    Paired given (before ++ .run opener :: (between ++ .run closer :: after))
      (before ++ (remains (opener.takeEnd n) ++
        .node (opener.stop - n) (closer.start + n) (if n = 2 then .strong else .emphasis) between ::
          (remains (closer.takeStart n) ++ after)))

/-! ### What one step does -/

variable {given : List Piece}

private theorem sublistForall₂_append {rs wholes : List Run} (h : rs.SublistForall₂ Run.LeftOf wholes)
    (before : List Run) : (before ++ rs).SublistForall₂ Run.LeftOf (before ++ wholes) := by
  induction before with
  | nil => exact h
  | cons r before ih => exact ih.cons (refl r)

private theorem sublistForall₂_remains {r whole : Run} {rs wholes : List Run} (h : r.LeftOf whole)
    (hrs : rs.SublistForall₂ Run.LeftOf wholes) :
    (runs (remains r) ++ rs).SublistForall₂ Run.LeftOf (whole :: wholes) := by
  unfold remains
  split
  · exact hrs.cons_right
  · exact hrs.cons h

/-- The runs after a step are left of those before it. -/
private theorem Paired.sublistForall₂ {ps qs : List Piece} (h : Paired given ps qs) :
    (runs qs).SublistForall₂ Run.LeftOf (runs ps) := by
  obtain @⟨before, between, after, opener, closer, o, c, n, -, -, -, -, hopen, hclose, -, -⟩ := h
  simp only [runs_append, runs_run, runs_node]
  refine sublistForall₂_append (sublistForall₂_remains (Run.leftOf_takeEnd hopen) ?_) (runs before)
  have hafter := sublistForall₂_remains (Run.leftOf_takeStart hclose) (refl (runs after))
  exact IsTrans.trans _ _ _ hafter (List.sublist_append_right (runs between) (closer :: runs after)).sublistForall₂

private theorem delimiters_append (ps qs : List Piece) : delimiters (ps ++ qs) = delimiters ps + delimiters qs := by
  simp [delimiters]

private theorem delimiters_run (r : Run) (ps : List Piece) : delimiters (.run r :: ps) = r.count + delimiters ps := by
  simp [delimiters]

private theorem delimiters_node (start stop : Nat) (content : Content) (children ps : List Piece) :
    delimiters (.node start stop content children :: ps) = delimiters ps :=
  rfl

private theorem delimiters_remains (r : Run) : delimiters (remains r) = r.count := by
  unfold remains
  split
  · rename_i h
    rw [h]
    rfl
  · rfl

/-- A step leaves fewer delimiters. -/
private theorem Paired.delimiters_lt {ps qs : List Piece} (h : Paired given ps qs) : delimiters qs < delimiters ps := by
  obtain @⟨before, between, after, opener, closer, o, c, n, -, -, -, -, hopen, hclose, hn, -⟩ := h
  simp only [delimiters_append, delimiters_run, delimiters_node, delimiters_remains, Run.takeEnd, Run.takeStart]
  omega

private theorem Unpaired.takeEnd {p : Piece} {r : Run} (n : Nat) (h : Unpaired p (.run r)) :
    Unpaired p (.run (r.takeEnd n)) := by
  cases p with
  | run opener =>
    intro hopen hclose hmatch
    simp only [Run.takeEnd] at hclose
    exact h hopen (by omega) ⟨hmatch.mark, hmatch.canOpen, hmatch.canClose, hmatch.three⟩
  | _ => trivial

/-! ### All steps -/

/-- Where no opener is found, no run before the closer has delimiters for it. -/
private theorem unpaired_of_findOpener?_eq_none {closer : Run} (hclose : closer.canClose = true) {before : List Piece}
    (h : findOpener? closer before = none) : ∀ p ∈ before, Unpaired p (.run closer) := by
  induction before with
  | nil => simp
  | cons p before ih =>
    rw [List.forall_mem_cons]
    cases p with
    | run opener =>
      by_cases hpairs : opener.pairs closer = true
      · simp [findOpener?, hpairs] at h
      · refine ⟨fun hopen _ hmatch => hpairs ((Run.pairs_iff hclose).2 ⟨hopen, hmatch⟩), ih ?_⟩
        simpa [findOpener?, hpairs] using h
    | _ => exact ⟨trivial, ih (by simpa [findOpener?] using h)⟩

private theorem unpaired_of_not_closing {closer : Run} (h : ¬(closer.canClose = true ∧ 0 < closer.count))
    (p : Piece) : Unpaired p (.run closer) := by
  cases p with
  | run opener => exact fun _ hcount hmatch => h ⟨hmatch.canClose, hcount⟩
  | _ => trivial

private theorem exhausted_reverse_cons {before : List Piece} (h : Exhausted before.reverse) {p : Piece}
    (hp : ∀ q ∈ before, Unpaired q p) : Exhausted (p :: before).reverse := by
  rw [Exhausted, List.pairwise_reverse] at h ⊢
  exact h.cons hp

/-- The pieces before the closer stay exhausted when a step puts its node in place of those after the opener. -/
private theorem exhausted_step {between further : List Piece} {opener closer : Run} (n : Nat)
    (h : Exhausted (between ++ .run opener :: further).reverse) :
    Exhausted (pairNode n opener closer between :: (remains (opener.takeEnd n) ++ further)).reverse := by
  have hopener : Exhausted (.run opener :: further).reverse := by
    rw [List.reverse_append] at h
    exact (List.pairwise_append.1 h).1
  have hfurther : Exhausted (remains (opener.takeEnd n) ++ further).reverse := by
    rw [Exhausted, List.pairwise_reverse, List.pairwise_cons] at hopener
    unfold remains
    split
    · rw [Exhausted, List.pairwise_reverse]
      exact hopener.2
    · rw [Exhausted, List.pairwise_reverse]
      exact hopener.2.cons fun q hq => (hopener.1 q hq).takeEnd n
  refine exhausted_reverse_cons hfurther fun q _ => ?_
  cases q <;> trivial

/-- The step that resolving takes for an opener it has found. -/
private theorem paired_step {between further rest : List Piece} {opener closer : Run}
    (hleft : (runs ((between ++ .run opener :: further).reverse ++ .run closer :: rest)).SublistForall₂ Run.LeftOf
      (runs given))
    (hexhausted : Exhausted (between ++ .run opener :: further).reverse) (hpairs : opener.pairs closer = true)
    (hclose : closer.canClose = true ∧ 0 < closer.count) :
    Paired given ((between ++ .run opener :: further).reverse ++ .run closer :: rest)
      ((pairNode (used opener closer) opener closer between
          :: (remains (opener.takeEnd (used opener closer)) ++ further)).reverse
        ++ (remains (closer.takeStart (used opener closer)) ++ rest)) := by
  have hopen := ((Run.pairs_iff hclose.1).1 hpairs).1
  have hcases := used_cases opener closer
  simp only [List.reverse_append, List.reverse_cons, List.append_assoc, List.singleton_append, remains_reverse]
    at hleft ⊢
  -- Two given runs in their order are what the opener and the closer are left of.
  have htwo : [opener, closer].SublistForall₂ Run.LeftOf (runs given) := by
    refine IsTrans.trans _ _ _ (List.Sublist.sublistForall₂ ?_) hleft
    simp only [runs_append, runs_run]
    refine List.Sublist.trans ?_ (List.sublist_append_right _ _)
    exact (List.Sublist.trans (by simp) (List.sublist_append_right _ _)).cons_cons opener
  obtain ⟨wholes, hparts, hgiven⟩ := List.sublistForall₂_iff.1 htwo
  obtain - | @⟨_, o, _, _, ho, hparts⟩ := hparts
  obtain - | @⟨_, c, _, _, hc, hparts⟩ := hparts
  obtain rfl := List.forall₂_nil_left_iff.1 hparts
  have hmatch := (ho.matches_iff hc).1 ((Run.pairs_iff hclose.1).1 hpairs).2
  have hn : used opener closer = 2 ∨ used opener closer = 1 ∧ (opener.count = 1 ∨ closer.count = 1) := by
    unfold used
    split <;> omega
  have hbetween : Exhausted between.reverse := by
    rw [List.reverse_append] at hexhausted
    exact (List.pairwise_append.1 hexhausted).2.1
  exact Paired.pair hgiven ho hc hmatch (by omega) (by omega) hn hbetween

private theorem resolveFrom_exhausted (before rest : List Piece)
    (hsteps : Relation.ReflTransGen (Paired given) given (before.reverse ++ rest))
    (hexhausted : Exhausted before.reverse) :
    Relation.ReflTransGen (Paired given) given (resolveFrom before rest) ∧ Exhausted (resolveFrom before rest) := by
  have hleft {ps : List Piece} (h : Relation.ReflTransGen (Paired given) given ps) :
      (runs ps).SublistForall₂ Run.LeftOf (runs given) := by
    induction h with
    | refl => exact refl _
    | tail _ hstep ih => exact IsTrans.trans _ _ _ hstep.sublistForall₂ ih
  fun_induction resolveFrom before rest with
  | case1 before => exact ⟨by simpa using hsteps, hexhausted⟩
  | case2 before closer rest hclose hnone ih =>
    exact ih (by simpa using hsteps)
      (exhausted_reverse_cons hexhausted (unpaired_of_findOpener?_eq_none hclose.1 hnone))
  | case3 before closer rest hclose between opener further hfound n before' closer' hzero ih =>
    obtain ⟨rfl, hpairs⟩ := findOpener?_eq_some hfound
    have hnil : remains (closer.takeStart (used opener closer)) = [] := if_pos hzero
    have hstep := paired_step (hleft hsteps) hexhausted hpairs hclose
    rw [hnil] at hstep
    exact ih (hsteps.tail hstep) (exhausted_step _ hexhausted)
  | case4 before closer rest hclose between opener further hfound n before' closer' hcount ih =>
    obtain ⟨rfl, hpairs⟩ := findOpener?_eq_some hfound
    have hrun : remains (closer.takeStart (used opener closer)) = [.run (closer.takeStart (used opener closer))] :=
      if_neg hcount
    have hstep := paired_step (hleft hsteps) hexhausted hpairs hclose
    rw [hrun] at hstep
    exact ih (hsteps.tail hstep) (exhausted_step _ hexhausted)
  | case5 before closer rest hclose ih =>
    exact ih (by simpa using hsteps) (exhausted_reverse_cons hexhausted fun p _ => unpaired_of_not_closing hclose p)
  | case6 before p rest hrun ih =>
    refine ih (by simpa using hsteps) (exhausted_reverse_cons hexhausted fun q _ => ?_)
    cases p with
    | run r => exact (hrun r rfl).elim
    | _ => cases q <;> trivial

/-- Resolving goes by steps. -/
theorem reflTransGen_resolve (given : List Piece) : Relation.ReflTransGen (Paired given) given (resolve given) :=
  (@resolveFrom_exhausted given [] given .refl List.Pairwise.nil).1

/-- Resolving goes by steps, and ends with no delimiters left to pair.  It ends because every step leaves fewer. -/
theorem resolve_exhausted (given : List Piece) :
    Relation.ReflTransGen (Paired given) given (resolve given) ∧ Exhausted (resolve given) ∧
      ∀ ps qs, Paired given ps qs → delimiters qs < delimiters ps := by
  obtain ⟨hsteps, hexhausted⟩ := @resolveFrom_exhausted given [] given .refl List.Pairwise.nil
  exact ⟨hsteps, hexhausted, fun _ _ hstep => hstep.delimiters_lt⟩

end Emphasis

end MarkdownTree.Scan
