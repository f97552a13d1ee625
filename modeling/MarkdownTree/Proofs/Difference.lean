import Mathlib.Data.List.Infix
import MarkdownTree.Text.Difference

/-!
# When rows of lines differ

Every entry of a row of lengths is the length of the run of usable lines with which two rows of lines end alike there
(`nextRow_endRuns`).  So a run that is kept stands in both rows (`common_keptRun`), and cutting leaves no line out
(`flatMap_cut`).  Of two equal rows no run is kept but the whole (`keptRun_self`): the longest run that is found first
ends at the same place in both.  So differences are shown exactly where there are any (`difference_eq_nil_iff`).
-/

namespace MarkdownTree.Text

variable {usable : String → Bool}

/-! ### Runs at the ends of rows -/

/-- The length of the run of usable lines with which two rows end alike; both are given backwards. -/
def endRun (usable : String → Bool) : List String → List String → Nat
  | a :: as, b :: bs => if a = b ∧ usable b then endRun usable as bs + 1 else 0
  | _, _ => 0

/-- For each line of a row, the length of the run that ends with it; what comes before the row is given backwards. -/
def endRuns (usable : String → Bool) (as : List String) (rb : List String) : List String → List Nat
  | [] => []
  | b :: bs => endRun usable as (b :: rb) :: endRuns usable as (b :: rb) bs

private theorem endRun_nil (as : List String) : endRun usable as [] = 0 := by
  cases as <;> rfl

private theorem endRuns_nil (usable : String → Bool) (rb bs : List String) :
    endRuns usable [] rb bs = bs.map fun _ => 0 := by
  induction bs generalizing rb with
  | nil => rfl
  | cons b bs ih =>
    rw [endRuns, ih]
    rfl

/-- The next row of lengths is about one line more. -/
theorem nextRow_endRuns (usable : String → Bool) (x : String) (as rb bs : List String) :
    nextRow usable x (endRun usable as rb) bs (endRuns usable as rb bs) = endRuns usable (x :: as) rb bs := by
  induction bs generalizing rb with
  | nil => rfl
  | cons b bs ih => rw [endRuns, nextRow, ih, endRuns, endRun]

private theorem endRun_le_left (usable : String → Bool) (as bs : List String) :
    endRun usable as bs ≤ endRun usable as as := by
  fun_induction endRun usable as bs with
  | case1 a as b bs h ih =>
    obtain ⟨rfl, hb⟩ := h
    simpa [endRun, hb] using ih
  | case2 => exact Nat.zero_le _
  | case3 => exact Nat.zero_le _

private theorem endRun_le_right (usable : String → Bool) (as bs : List String) :
    endRun usable as bs ≤ endRun usable bs bs := by
  fun_induction endRun usable as bs with
  | case1 a as b bs h ih =>
    obtain ⟨rfl, hb⟩ := h
    simpa [endRun, hb] using ih
  | case2 => exact Nat.zero_le _
  | case3 => exact Nat.zero_le _

/-- The run is there. -/
private theorem exists_endRun (usable : String → Bool) (as bs : List String) :
    ∃ run as' bs', as = run ++ as' ∧ bs = run ++ bs' ∧ run.length = endRun usable as bs := by
  fun_induction endRun usable as bs with
  | case1 a as b bs h ih =>
    obtain ⟨rfl, -⟩ := h
    obtain ⟨run, as', bs', rfl, rfl, hlength⟩ := ih
    exact ⟨a :: run, as', bs', rfl, rfl, by simp [hlength]⟩
  | case2 a as b bs => exact ⟨[], _, _, rfl, rfl, rfl⟩
  | case3 as bs => exact ⟨[], _, _, rfl, rfl, rfl⟩

/-! ### The longest run -/

/-- The best run after a row of lengths is what it takes line by line. -/
private theorem longer_induction {as total : List String} {index : Nat} {P : List String → Run → Prop}
    (hstep : ∀ rb b rest best, total = rb.reverse ++ b :: rest → P rb best →
      P (b :: rb) (if best.size < endRun usable as (b :: rb) then
        ⟨index + 1 - endRun usable as (b :: rb), rb.length + 1 - endRun usable as (b :: rb), endRun usable as (b :: rb)⟩
        else best)) {best : Run} (h : P [] best) :
    P total.reverse (longer index best (endRuns usable as [] total)) := by
  have hfold (bs rb : List String) (best : Run) (htotal : total = rb.reverse ++ bs) (h : P rb best) :
      P total.reverse (((endRuns usable as rb bs).zipIdx rb.length).foldl (fun best e =>
        if best.size < e.1 then ⟨index + 1 - e.1, e.2 + 1 - e.1, e.1⟩ else best) best) := by
    induction bs generalizing rb best with
    | nil =>
      rw [htotal]
      simpa [endRuns] using h
    | cons b bs ih =>
      rw [endRuns, List.zipIdx_cons, List.foldl_cons]
      exact ih (b :: rb) _ (by simp [htotal]) (hstep rb b bs best htotal h)
  exact hfold total [] best rfl h

private theorem longestRun_induction {bs total : List String} {Q : List String → Run → Prop}
    (hstep : ∀ ra a rest best, total = ra.reverse ++ a :: rest → Q ra best →
      Q (a :: ra) (longer ra.length best (endRuns usable (a :: ra) [] bs))) (h : Q [] ⟨0, 0, 0⟩) :
    Q total.reverse (longestRun usable bs 0 (bs.map fun _ => 0) ⟨0, 0, 0⟩ total) := by
  have hfold (as ra : List String) (best : Run) (htotal : total = ra.reverse ++ as) (h : Q ra best) :
      Q total.reverse (longestRun usable bs ra.length (endRuns usable ra [] bs) best as) := by
    induction as generalizing ra best with
    | nil =>
      rw [htotal]
      simpa [longestRun] using h
    | cons a as ih =>
      have hrow := nextRow_endRuns usable a ra [] bs
      rw [endRun_nil] at hrow
      simp only [longestRun, hrow]
      exact ih (a :: ra) _ (by simp [htotal]) (hstep ra a as best htotal h)
  rw [← endRuns_nil usable []]
  exact hfold total [] ⟨0, 0, 0⟩ rfl h

/-- A run that stands where it says in both rows. -/
def Common (as bs : List String) (r : Run) : Prop :=
  ∃ before after run before' after', as = before ++ (run ++ after) ∧ bs = before' ++ (run ++ after') ∧
    before.length = r.before ∧ before'.length = r.after ∧ run.length = r.size

private theorem common_longestRun (usable : String → Bool) (as bs : List String) :
    Common as bs (longestRun usable bs 0 (bs.map fun _ => 0) ⟨0, 0, 0⟩ as) := by
  refine longestRun_induction (Q := fun _ => Common as bs) (fun ra a rest best has h => ?_)
    ⟨[], as, [], [], bs, rfl, rfl, rfl, rfl, rfl⟩
  refine longer_induction (P := fun _ => Common as bs) (fun rb b rest' best hbs h => ?_) h
  split
  · obtain ⟨run, as', bs', ha, hb, hlength⟩ := exists_endRun usable (a :: ra) (b :: rb)
    have halength := congrArg List.length ha
    have hblength := congrArg List.length hb
    simp only [List.length_cons, List.length_append] at halength hblength
    refine ⟨as'.reverse, rest, run.reverse, bs'.reverse, rest', ?_, ?_, ?_, ?_, ?_⟩
    · have hreverse := congrArg List.reverse ha
      simp only [List.reverse_cons, List.reverse_append] at hreverse
      rw [has, ← List.append_assoc, ← hreverse]
      simp
    · have hreverse := congrArg List.reverse hb
      simp only [List.reverse_cons, List.reverse_append] at hreverse
      rw [hbs, ← List.append_assoc, ← hreverse]
      simp
    · simp only [List.length_reverse]
      omega
    · simp only [List.length_reverse]
      omega
    · simpa using hlength
  · exact h

private theorem exists_commonLength (as bs : List String) :
    ∃ run as' bs', as = run ++ as' ∧ bs = run ++ bs' ∧ run.length = commonLength as bs := by
  fun_induction commonLength as bs with
  | case1 as a bs ih =>
    obtain ⟨run, as', bs', rfl, rfl, hlength⟩ := ih
    exact ⟨a :: run, as', bs', rfl, rfl, by simp [hlength]⟩
  | case2 a as b bs => exact ⟨[], _, _, rfl, rfl, rfl⟩
  | case3 as bs => exact ⟨[], _, _, rfl, rfl, rfl⟩

private theorem Common.widen {as bs : List String} {r : Run} (h : Common as bs r) : Common as bs (r.widen as bs) := by
  obtain ⟨before, after, run, before', after', rfl, rfl, hbefore, hafter, hsize⟩ := h
  have htake : (before ++ (run ++ after)).take r.before = before := by rw [← hbefore, List.take_left']; rfl
  have htake' : (before' ++ (run ++ after')).take r.after = before' := by rw [← hafter, List.take_left']; rfl
  have hdrop : (before ++ (run ++ after)).drop (r.before + r.size) = after := by
    rw [← hbefore, ← hsize, ← List.append_assoc, ← List.length_append, List.drop_left']; rfl
  have hdrop' : (before' ++ (run ++ after')).drop (r.after + r.size) = after' := by
    rw [← hafter, ← hsize, ← List.append_assoc, ← List.length_append, List.drop_left']; rfl
  unfold Run.widen
  rw [htake, htake', hdrop, hdrop']
  obtain ⟨back, rest, rest', hb, hb', hback⟩ := exists_commonLength before.reverse before'.reverse
  obtain ⟨on, tail, tail', ha, ha', hon⟩ := exists_commonLength after after'
  obtain rfl : before = rest.reverse ++ back.reverse := by rw [← List.reverse_append, ← hb, List.reverse_reverse]
  obtain rfl : before' = rest'.reverse ++ back.reverse := by rw [← List.reverse_append, ← hb', List.reverse_reverse]
  subst ha ha'
  refine ⟨rest.reverse, tail, back.reverse ++ run ++ on, rest'.reverse, tail', by simp, by simp, ?_, ?_, ?_⟩
  · simp only [List.length_append, List.length_reverse] at hbefore ⊢
    omega
  · simp only [List.length_append, List.length_reverse] at hafter ⊢
    omega
  · simp only [List.length_append, List.length_reverse]
    omega

/-- The run that is kept stands in both rows. -/
theorem common_keptRun (usable : String → Bool) (as bs : List String) : Common as bs (keptRun usable as bs) :=
  (common_longestRun usable as bs).widen

/-! ### Passages -/

/-- Cutting leaves no line out. -/
theorem flatMap_cut (usable : String → Bool) (fuel : Nat) (as bs : List String) :
    (cut usable fuel as bs).flatMap Passage.before = as ∧ (cut usable fuel as bs).flatMap Passage.after = bs := by
  induction fuel generalizing as bs with
  | zero => simp [cut, Passage.before, Passage.after]
  | succ fuel ih =>
    obtain ⟨before, after, run, before', after', has, hbs, hbefore, hafter, hsize⟩ :=
      common_keptRun usable as bs
    rw [cut, ← hbefore, ← hafter, ← hsize]
    split
    · split
      · simp_all
      · simp [Passage.before, Passage.after]
    · rw [has, hbs, List.take_left, List.take_left, List.drop_left, List.take_left, ← List.append_assoc before,
        ← List.append_assoc before', ← List.length_append, ← List.length_append, List.drop_left, List.drop_left]
      obtain ⟨hleft, hleft'⟩ := ih before before'
      obtain ⟨hright, hright'⟩ := ih after after'
      simp [hleft, hleft', hright, hright', Passage.before, Passage.after]

private theorem flatMap_joinSame {f : Passage → List String} (hf : ∀ ls, f (.same ls) = ls) (ps : List Passage) :
    (joinSame ps).flatMap f = ps.flatMap f := by
  induction ps with
  | nil => rfl
  | cons p ps ih =>
    unfold joinSame
    split
    · rename_i ls ms rest hrest
      rw [hrest] at ih
      simp [hf, ← ih]
    · simp [ih]

private theorem hunksFrom_ne_nil (context i j : Nat) (h : Hunk) (ps : List Passage) :
    hunksFrom context i j h ps ≠ [] := by
  fun_induction hunksFrom context i j h ps <;> simp_all

/-- No hunks are shown where all is one unchanged passage. -/
private theorem hunks_eq_nil_iff {context : Nat} {ps : List Passage} :
    hunks context ps = [] ↔ ps = [] ∨ ∃ ls, ps = [.same ls] := by
  unfold hunks
  split
  · simp
  · simp
  · rename_i ls rest hrest
    simp only [hunksFrom_ne_nil, false_iff]
    rintro (h | ⟨ms, h⟩)
    · cases h
    · cases h
      exact hrest rfl
  · rename_i hnil hone hsame
    simp only [hunksFrom_ne_nil, false_iff]
    rintro (h | ⟨ms, h⟩)
    · exact hnil h
    · exact hone ms h

/-! ### Equal rows -/

private theorem suffix_of_length_le {total ra rb rest rest' : List String} (ha : total = ra.reverse ++ rest)
    (hb : total = rb.reverse ++ rest') (h : ra.length ≤ rb.length) : ra <:+ rb := by
  rw [← List.reverse_prefix]
  exact List.prefix_of_prefix_length_le ⟨rest, ha.symm⟩ ⟨rest', hb.symm⟩ (by simpa using h)

private theorem endRun_le_length (usable : String → Bool) (as bs : List String) : endRun usable as bs ≤ as.length := by
  obtain ⟨run, as', bs', has, -, hlength⟩ := exists_endRun usable as bs
  have hlengths := congrArg List.length has
  rw [List.length_append] at hlengths
  omega

/-- The longest run of a row and itself, up to a line: it ends at the same place in both, as no run that does not is
longer than the one that ends with the same line in both. -/
structure Diagonal (usable : String → Bool) (ra : List String) (best : Run) : Prop where
  before : best.before = best.after
  stop : best.after + best.size ≤ ra.length
  longest : ∀ rb, rb <:+ ra → endRun usable rb rb ≤ best.size

private theorem Diagonal.longer {total ra rest : List String} {a : String} (htotal : total = ra.reverse ++ a :: rest)
    {best : Run} (h : Diagonal usable ra best) :
    Diagonal usable (a :: ra) (longer ra.length best (endRuns usable (a :: ra) [] total)) := by
  have hcons : total = (a :: ra).reverse ++ rest := by simp [htotal]
  -- Once the row has come to the line itself, the best run is as long as any that ends with it.
  let P (rb : List String) (best : Run) : Prop :=
    best.before = best.after ∧ best.after + best.size ≤ ra.length + 1 ∧
      (∀ rc, rc <:+ ra → endRun usable rc rc ≤ best.size) ∧
      (a :: ra <:+ rb → endRun usable (a :: ra) (a :: ra) ≤ best.size)
  suffices hrow : P total.reverse (Text.longer ra.length best (endRuns usable (a :: ra) [] total)) by
    obtain ⟨hbefore, hstop, hlongest, hself⟩ := hrow
    refine ⟨hbefore, hstop, fun rb hrb => ?_⟩
    rcases List.suffix_cons_iff.1 hrb with rfl | hrb
    · exact hself (by rw [hcons, List.reverse_append, List.reverse_reverse]; exact List.suffix_append _ _)
    · exact hlongest rb hrb
  refine longer_induction (P := P) (fun rb b rest' best hb hP => ?_) ?_
  · obtain ⟨hbefore, hstop, hlongest, hself⟩ := hP
    have hcons' : total = (b :: rb).reverse ++ rest' := by simp [hb]
    have hleft := endRun_le_left usable (a :: ra) (b :: rb)
    have hright := endRun_le_right usable (a :: ra) (b :: rb)
    rcases Nat.lt_trichotomy rb.length ra.length with hlt | heq | hgt
    · have hsuffix : b :: rb <:+ ra := suffix_of_length_le hcons' htotal hlt
      have hle := hlongest _ hsuffix
      rw [if_neg (by omega)]
      refine ⟨hbefore, hstop, hlongest, fun h => ?_⟩
      have hlength := h.length_le
      simp only [List.length_cons] at hlength
      omega
    · have hsuffix : b :: rb <:+ a :: ra := suffix_of_length_le hcons' hcons (by simp [heq])
      obtain ⟨rfl, rfl⟩ := List.cons.inj (hsuffix.eq_of_length (by simp [heq]))
      have hle := endRun_le_length usable (b :: rb) (b :: rb)
      simp only [List.length_cons] at hle
      split
      · refine ⟨rfl, ?_, fun rc hrc => ?_, fun _ => Nat.le_refl _⟩
        · dsimp only
          omega
        · have := hlongest rc hrc
          dsimp only
          omega
      · exact ⟨hbefore, hstop, hlongest, fun _ => by omega⟩
    · have hsuffix : a :: ra <:+ rb := suffix_of_length_le hcons hb hgt
      have hle := hself hsuffix
      rw [if_neg (by omega)]
      exact ⟨hbefore, hstop, hlongest, fun _ => hle⟩
  · refine ⟨h.before, by have := h.stop; omega, h.longest, fun hnil => ?_⟩
    cases List.suffix_nil.1 hnil

private theorem commonLength_self (as : List String) : commonLength as as = as.length := by
  induction as with
  | nil => rfl
  | cons a as ih => rw [commonLength, if_pos rfl, ih, List.length_cons]

/-- Of two equal rows all is kept. -/
theorem keptRun_self (as : List String) : keptRun usable as as = ⟨0, 0, as.length⟩ := by
  have hdiagonal : Diagonal usable as.reverse (longestRun usable as 0 (as.map fun _ => 0) ⟨0, 0, 0⟩ as) :=
    longestRun_induction (Q := Diagonal usable) (fun ra a rest best htotal h => h.longer htotal)
      ⟨rfl, Nat.le_refl _, fun rb hrb => by rw [List.suffix_nil.1 hrb]; exact Nat.le_refl _⟩
  unfold keptRun
  generalize longestRun usable as 0 (as.map fun _ => 0) ⟨0, 0, 0⟩ as = r at hdiagonal
  obtain ⟨hbefore, hstop, -⟩ := hdiagonal
  rw [List.length_reverse] at hstop
  unfold Run.widen
  rw [hbefore, commonLength_self, commonLength_self, List.length_reverse, List.length_take, List.length_drop]
  simp only [Run.mk.injEq]
  omega

private theorem cut_nil (fuel : Nat) : cut usable (fuel + 1) [] [] = [] := by
  rw [cut, keptRun_self]
  rfl

private theorem passages_self (as : List String) : passages as as = [] ∨ passages as as = [.same as] := by
  cases as with
  | nil => exact .inl (by rw [passages, cut_nil]; rfl)
  | cons a as =>
    right
    rw [passages, cut, keptRun_self]
    simp [cut_nil, joinSame, ← Nat.add_assoc]

/-- Differences are shown exactly where there are any. -/
theorem difference_eq_nil_iff {beforeName afterName : String} {as bs : List String} :
    difference beforeName afterName as bs = [] ↔ as = bs := by
  have hnil : difference beforeName afterName as bs = [] ↔ hunks 3 (passages as bs) = [] := by
    unfold difference
    split <;> simp_all
  rw [hnil, hunks_eq_nil_iff]
  constructor
  · obtain ⟨hbefore, hafter⟩ := flatMap_cut (fun b => !isFrequent bs b) (as.length + bs.length + 1) as bs
    rw [← flatMap_joinSame (fun _ => rfl)] at hbefore hafter
    change (passages as bs).flatMap Passage.before = as at hbefore
    change (passages as bs).flatMap Passage.after = bs at hafter
    rintro (h | ⟨ls, h⟩)
    · rw [h] at hbefore hafter
      exact hbefore.symm.trans hafter
    · rw [h] at hbefore hafter
      exact hbefore.symm.trans hafter
  · rintro rfl
    rcases passages_self as with h | h
    · exact .inl h
    · exact .inr ⟨as, h⟩

end MarkdownTree.Text
