import MarkdownTree.Proofs.Piece

/-!
# Resolving emphasis

Resolving takes delimiters from the ends of two runs and puts what stands between them into a node.  One such step keeps
the pieces a row (`row_pair`) with different marks side by side (`apart_pair`), so resolving does (`row_resolve`).  What
holds of all pieces and of every node that a step makes of them holds of the result (`forall_resolve`).
-/

namespace MarkdownTree.Scan.Emphasis

open Piece

variable {text : List Char} {lo hi : Nat}

/-- The opener that is found splits the pieces before the closer. -/
theorem findOpener?_eq_some {closer opener : Run} {before between further : List Piece}
    (h : findOpener? closer before = some (between, opener, further)) :
    before = between ++ .run opener :: further ∧ opener.pairs closer = true := by
  induction before generalizing between with
  | nil => simp [findOpener?] at h
  | cons p before ih =>
    have hfurther : (findOpener? closer before).map (fun found => (p :: found.1, found.2))
        = some (between, opener, further) →
        p :: before = between ++ .run opener :: further ∧ opener.pairs closer = true := by
      intro h
      obtain ⟨⟨between', found⟩, hfound, heq⟩ := Option.map_eq_some_iff.1 h
      cases heq
      obtain ⟨rfl, hpairs⟩ := ih hfound
      exact ⟨rfl, hpairs⟩
    unfold findOpener? at h
    split at h
    · split at h
      · cases h
        exact ⟨rfl, by assumption⟩
      · exact hfurther h
    · exact hfurther h

private theorem pairs_count {opener closer : Run} (h : opener.pairs closer = true) : 0 < opener.count := by
  simp only [Run.pairs, Bool.and_eq_true, decide_eq_true_eq] at h
  exact h.1.2

private theorem pairs_mark {opener closer : Run} (h : opener.pairs closer = true) : opener.mark = closer.mark := by
  simp only [Run.pairs, Bool.and_eq_true, beq_iff_eq] at h
  exact h.1.1.1

/-! ### One step -/

/-- How many delimiters a step takes from each of two runs. -/
def used (opener closer : Run) : Nat :=
  if 2 ≤ opener.count ∧ 2 ≤ closer.count then 2 else 1

theorem used_cases (opener closer : Run) :
    used opener closer = 1 ∨ used opener closer = 2 ∧ 2 ≤ opener.count ∧ 2 ≤ closer.count := by
  unfold used
  split
  · exact .inr ⟨rfl, by assumption⟩
  · exact .inl rfl

/-- What is left of a run at its start goes on to where the delimiters taken from it began. -/
private theorem row_remains_takeEnd {r : Run} {n : Nat} (hr : Reads text (.run r)) (hn : n ≤ r.count) :
    Row text r.start (remains (r.takeEnd n)) (r.stop - n) := by
  simp only [Reads] at hr
  unfold remains
  split
  · rename_i h
    simp only [Run.takeEnd] at h
    simp only [Row]
    omega
  · rename_i h
    simp only [Run.takeEnd] at h
    simp only [row_singleton, Piece.start, Piece.stop, Reads, Run.takeEnd, true_and, and_true]
    omega

/-- What is left of a run at its end starts after the delimiters taken from it. -/
private theorem row_remains_takeStart {r : Run} {n : Nat} (hr : Reads text (.run r)) (hn : n ≤ r.count) :
    Row text (r.start + n) (remains (r.takeStart n)) r.stop := by
  simp only [Reads] at hr
  unfold remains
  split
  · rename_i h
    simp only [Run.takeStart] at h
    simp only [Row]
    omega
  · rename_i h
    simp only [Run.takeStart] at h
    simp only [row_singleton, Piece.start, Piece.stop, Reads, Run.takeStart, true_and, and_true]
    omega

theorem remains_reverse (r : Run) : (remains r).reverse = remains r := by
  unfold remains
  split <;> rfl

private theorem reads_pairNode {opener closer : Run} {between : List Piece} {n : Nat} (hn : n = 1 ∨ n = 2)
    (ho : Reads text (.run opener)) (hno : n ≤ opener.count)
    (hbetween : Row text opener.stop between.reverse closer.start) (hne : between ≠ []) :
    Reads text (pairNode n opener closer between) := by
  have hle := hbetween.le
  simp only [Reads] at ho
  simp only [pairNode, Reads]
  refine ⟨opener.stop, closer.start, by omega, by omega, hbetween, ?_⟩
  have hne' : between.reverse ≠ [] := by simpa using hne
  rcases hn with rfl | rfl
  · simp only [Nat.reduceEqDiff, ↓reduceIte, Marks]
    exact ⟨by omega, trivial, hne'⟩
  · simp only [↓reduceIte, Marks]
    exact ⟨by omega, trivial, hne'⟩

/-- The pieces after a step: the node, and what is left of the two runs around it. -/
theorem row_pair {opener closer : Run} {between further rest : List Piece} (hpairs : opener.pairs closer = true)
    (hc : 0 < closer.count) (hne : between ≠ [])
    (h : Row text lo ((between ++ .run opener :: further).reverse ++ .run closer :: rest) hi) :
    Row text lo
      ((pairNode (used opener closer) opener closer between
          :: (remains (opener.takeEnd (used opener closer)) ++ further)).reverse
        ++ (remains (closer.takeStart (used opener closer)) ++ rest)) hi := by
  have ho := pairs_count hpairs
  obtain ⟨n, hn⟩ : ∃ n, used opener closer = n := ⟨_, rfl⟩
  have hcases := used_cases opener closer
  rw [hn] at hcases ⊢
  have hcount : n ≤ opener.count ∧ n ≤ closer.count := by omega
  -- The row goes on from the pieces before the opener over both runs and what is between them to the rest.
  simp only [List.reverse_append, List.reverse_cons, List.append_assoc, List.singleton_append] at h ⊢
  obtain ⟨first, hfurther, h⟩ := row_append.1 h
  obtain ⟨hfirst, hopener, h⟩ := h
  obtain ⟨last, hbetween, h⟩ := row_append.1 h
  obtain ⟨hlast, hcloser, hrest⟩ := h
  subst hfirst hlast
  have hnode := reads_pairNode (by omega) hopener hcount.1 hbetween hne
  refine row_append.2 ⟨_, hfurther, row_append.2 ⟨_, ?_, rfl, hnode, ?_⟩⟩
  · rw [remains_reverse]
    exact row_remains_takeEnd hopener hcount.1
  · exact row_append.2 ⟨_, row_remains_takeStart hcloser hcount.2, hrest⟩

/-- There is something between two runs of one mark. -/
theorem between_ne_nil {opener closer : Run} {between further rest : List Piece} (hpairs : opener.pairs closer = true)
    (h : ((between ++ .run opener :: further).reverse ++ .run closer :: rest).IsChain Apart) : between ≠ [] := by
  rintro rfl
  simp only [List.nil_append, List.reverse_cons, List.append_assoc, List.singleton_append] at h
  have hapart := (List.isChain_append_cons_cons.1 h).2.1
  rcases hapart with hnone | hne
  · cases hnone
  · exact hne (congrArg some (pairs_mark hpairs))

private theorem isChain_remains_append {r : Run} {ps : List Piece} (h : (.run r :: ps).IsChain Apart) :
    (remains r ++ ps).IsChain Apart := by
  unfold remains
  split
  · exact h.tail
  · exact h

/-- Runs of one mark do not come to stand side by side: the node of a step is between what is left of its runs. -/
theorem apart_pair {opener closer : Run} {between further rest : List Piece} (n : Nat)
    (h : ((between ++ .run opener :: further).reverse ++ .run closer :: rest).IsChain Apart) :
    ((pairNode n opener closer between :: (remains (opener.takeEnd n) ++ further)).reverse
      ++ (remains (closer.takeStart n) ++ rest)).IsChain Apart := by
  simp only [List.reverse_append, List.reverse_cons, List.append_assoc, List.singleton_append,
    remains_reverse] at h ⊢
  obtain ⟨hfurther, hopener, hjoint⟩ := List.isChain_append.1 h
  have hcloser : (.run closer :: rest).IsChain Apart := hopener.tail.right_of_append
  have hcloser' : (.run (closer.takeStart n) :: rest).IsChain Apart :=
    hcloser.tail.cons fun y hy => hcloser.rel_head? hy
  have hafter : (remains (closer.takeStart n) ++ rest).IsChain Apart := isChain_remains_append hcloser'
  have hnode : (pairNode n opener closer between :: (remains (closer.takeStart n) ++ rest)).IsChain Apart :=
    hafter.cons fun _ _ => apart_of_mark?_left rfl
  have hopen : (.run (opener.takeEnd n) :: pairNode n opener closer between
      :: (remains (closer.takeStart n) ++ rest)).IsChain Apart :=
    hnode.cons fun y hy => by
      cases hy
      exact apart_of_mark?_right rfl
  -- Where nothing is left of the opener the node takes its place, and stands next to any piece.
  refine hfurther.append (isChain_remains_append hopen) fun x hx y hy => ?_
  unfold remains at hy
  split at hy
  · cases hy
    exact apart_of_mark?_right rfl
  · cases hy
    exact hjoint x hx (.run opener) rfl

/-! ### All steps -/

/-- Resolving emphasis keeps pieces a row. -/
private theorem row_resolveFrom (before rest : List Piece) (hrow : Row text lo (before.reverse ++ rest) hi)
    (hapart : (before.reverse ++ rest).IsChain Apart) : Row text lo (resolveFrom before rest) hi := by
  fun_induction resolveFrom before rest with
  | case1 before => simpa using hrow
  | case2 before closer rest hclose hnone ih => exact ih (by simpa using hrow) (by simpa using hapart)
  | case3 before closer rest hclose between opener further hfound n before' closer' hzero ih =>
    obtain ⟨rfl, hpairs⟩ := findOpener?_eq_some hfound
    have hnil : remains (closer.takeStart (used opener closer)) = [] := if_pos hzero
    have hrow' := row_pair hpairs hclose.2 (between_ne_nil hpairs hapart) hrow
    have hapart' := apart_pair (used opener closer) hapart
    rw [hnil] at hrow' hapart'
    exact ih hrow' hapart'
  | case4 before closer rest hclose between opener further hfound n before' closer' hcount ih =>
    obtain ⟨rfl, hpairs⟩ := findOpener?_eq_some hfound
    have hrun : remains (closer.takeStart (used opener closer)) = [.run (closer.takeStart (used opener closer))] :=
      if_neg hcount
    have hrow' := row_pair hpairs hclose.2 (between_ne_nil hpairs hapart) hrow
    have hapart' := apart_pair (used opener closer) hapart
    rw [hrun] at hrow' hapart'
    exact ih hrow' hapart'
  | case5 before closer rest hclose ih => exact ih (by simpa using hrow) (by simpa using hapart)
  | case6 before p rest hrun ih => exact ih (by simpa using hrow) (by simpa using hapart)

theorem row_resolve {ps : List Piece} (hrow : Row text lo ps hi) (hapart : ps.IsChain Apart) :
    Row text lo (resolve ps) hi :=
  row_resolveFrom [] ps hrow hapart

private theorem forall_remains {Q : Piece → Prop} (hrun : ∀ r, Q (.run r)) (r : Run) : ∀ p ∈ remains r, Q p := by
  intro p hp
  unfold remains at hp
  split at hp
  · cases hp
  · rw [List.mem_singleton.1 hp]
    exact hrun r

private theorem forall_resolveFrom {Q : Piece → Prop} (hrun : ∀ r, Q (.run r))
    (hnode : ∀ n opener closer between, (∀ p ∈ between, Q p) → Q (pairNode n opener closer between))
    (before rest : List Piece) (hbefore : ∀ p ∈ before, Q p) (hrest : ∀ p ∈ rest, Q p) :
    ∀ p ∈ resolveFrom before rest, Q p := by
  -- What a step leaves before the closer: pieces that were there, what is left of the opener, and the node.
  have hstep {between further : List Piece} {opener : Run} (closer : Run) (n : Nat)
      (h : ∀ p ∈ between ++ .run opener :: further, Q p) :
      ∀ p ∈ pairNode n opener closer between :: (remains (opener.takeEnd n) ++ further), Q p := by
    simp only [List.forall_mem_cons, List.forall_mem_append] at h ⊢
    exact ⟨hnode n opener closer between h.1, forall_remains hrun _, h.2.2⟩
  fun_induction resolveFrom before rest with
  | case1 before => simpa using hbefore
  | case2 before closer rest hclose hnone ih =>
    exact ih (List.forall_mem_cons.2 ⟨hrun _, hbefore⟩) (List.forall_mem_cons.1 hrest).2
  | case3 before closer rest hclose between opener further hfound n before' closer' hzero ih =>
    obtain ⟨rfl, -⟩ := findOpener?_eq_some hfound
    exact ih (hstep closer n hbefore) (List.forall_mem_cons.1 hrest).2
  | case4 before closer rest hclose between opener further hfound n before' closer' hcount ih =>
    obtain ⟨rfl, -⟩ := findOpener?_eq_some hfound
    exact ih (hstep closer n hbefore) (List.forall_mem_cons.2 ⟨hrun _, (List.forall_mem_cons.1 hrest).2⟩)
  | case5 before closer rest hclose ih =>
    exact ih (List.forall_mem_cons.2 ⟨hrun _, hbefore⟩) (List.forall_mem_cons.1 hrest).2
  | case6 before p rest hnorun ih =>
    obtain ⟨hp, hrest⟩ := List.forall_mem_cons.1 hrest
    exact ih (List.forall_mem_cons.2 ⟨hp, hbefore⟩) hrest

theorem forall_resolve {Q : Piece → Prop} (hrun : ∀ r, Q (.run r))
    (hnode : ∀ n opener closer between, (∀ p ∈ between, Q p) → Q (pairNode n opener closer between))
    {ps : List Piece} (h : ∀ p ∈ ps, Q p) : ∀ p ∈ resolve ps, Q p :=
  forall_resolveFrom hrun hnode [] ps (by simp) h

/-- Resolving makes no link. -/
theorem unbracketedList_resolve {ps : List Piece} (h : UnbracketedList text ps) :
    UnbracketedList text (resolve ps) := by
  rw [unbracketedList_iff] at h ⊢
  refine forall_resolve (fun r => by simp [Unbracketed]) (fun n opener closer between hbetween => ?_) h
  simp only [pairNode, Unbracketed, unbracketedList_iff, List.mem_reverse]
  refine ⟨fun hlink => ?_, hbetween⟩
  split at hlink <;> cases hlink

end MarkdownTree.Scan.Emphasis
