import MarkdownTree.Print.Leaf
import MarkdownTree.Proofs.Trim
import MarkdownTree.Scan.Inline

/-!
# Code spans come back

A code span is written between runs of backticks that are longer than all runs in its value (`le_longestRun`), so the
first run of that length behind the opening one is the closing one, and the spaces that are put around some values are
the ones that the reader takes off again (`readCode_inlineCodeText`).
-/

namespace MarkdownTree.Print

/-! ### Longest runs -/

private theorem le_longestRun_from (mark : Char) (run best : Nat) (cs : List Char) :
    best ≤ longestRun mark run best cs ∧ run + (cs.takeWhile (· == mark)).length ≤ longestRun mark run best cs := by
  induction cs generalizing run best with
  | nil =>
    simp only [longestRun, List.takeWhile_nil, List.length_nil]
    omega
  | cons c cs ih =>
    rw [longestRun]
    by_cases hc : c = mark
    · obtain ⟨hbest, hrun⟩ := ih (run + 1) best
      rw [if_pos hc, List.takeWhile_cons_of_pos (by simpa using hc), List.length_cons]
      omega
    · obtain ⟨hbest, -⟩ := ih 0 (max run best)
      rw [if_neg hc, List.takeWhile_cons_of_neg (by simpa using hc), List.length_nil]
      omega

private theorem le_longestRun_of_infix {mark : Char} {k : Nat} {cs : List Char} (h : List.replicate k mark <:+: cs)
    (run best : Nat) : k ≤ longestRun mark run best cs := by
  induction cs generalizing run best with
  | nil =>
    have := h.length_le
    rw [List.length_replicate, List.length_nil] at this
    omega
  | cons c cs ih =>
    rcases List.infix_cons_iff.1 h with hprefix | hinfix
    · -- A run at the start is no longer than all that start with the mark.
      obtain ⟨rest, hrest⟩ := hprefix
      have hle := (le_longestRun_from mark run best (c :: cs)).2
      rw [← hrest, List.takeWhile_append_of_pos (by simp), List.length_append, List.length_replicate] at hle
      rw [← hrest]
      omega
    · rw [longestRun]
      split <;> exact ih hinfix _ _

/-- No run of a character is longer than the longest one. -/
theorem le_longestRun {mark : Char} {k : Nat} {cs : List Char} (h : List.replicate k mark <:+: cs) :
    k ≤ longestRun mark 0 0 cs :=
  le_longestRun_of_infix h 0 0

theorem takeWhile_run {mark : Char} (n : Nat) {rest : List Char} (hrest : rest.head? ≠ some mark) :
    (List.replicate n mark ++ rest).takeWhile (· == mark) = List.replicate n mark := by
  have hnone : rest.takeWhile (· == mark) = [] := by
    cases rest with
    | nil => rfl
    | cons c cs => exact List.takeWhile_cons_of_neg (by simpa using hrest)
  rw [List.takeWhile_append_of_pos (by simp), hnone, List.append_nil]

theorem prefix_run (mark : Char) (cs : List Char) :
    List.replicate (cs.takeWhile (· == mark)).length mark <+: cs := by
  rw [← Text.takeWhile_beq]
  exact List.takeWhile_prefix _

private theorem longestRun_concat {mark c : Char} (hc : c ≠ mark) (run best : Nat) (cs : List Char) :
    longestRun mark run best (cs ++ [c]) = longestRun mark run best cs := by
  induction cs generalizing run best with
  | nil =>
    simp only [List.nil_append, longestRun, if_neg hc]
    omega
  | cons d cs ih =>
    rw [List.cons_append, longestRun, longestRun, ih, ih]

theorem flatten_eq {text : List Char} (h : '\n' ∉ text) : flatten text = text := by
  rw [flatten]
  refine (List.map_congr_left fun c hc => if_neg ?_).trans (List.map_id text)
  rintro rfl
  exact h hc

end MarkdownTree.Print

namespace MarkdownTree.Scan

open Text Print

/-! ### Bodies of code spans -/

private theorem CodeSpan.ticks_replicate (n : Nat) {rest : List Char} (hrest : rest.head? ≠ some '\x60') :
    ticks (List.replicate n '\x60' ++ rest) = n := by
  rw [ticks, takeWhile_run n hrest, List.length_replicate]

/-- A run that ends before the text does is as long whatever comes after the text. -/
private theorem CodeSpan.ticks_append {cs : List Char} (h : ∃ c ∈ cs, c ≠ '\x60') (rest : List Char) :
    ticks (cs ++ rest) = ticks cs := by
  induction cs with
  | nil => simp at h
  | cons c cs ih =>
    by_cases hc : c = '\x60'
    · have htail : ∃ c ∈ cs, c ≠ '\x60' := by simpa [hc] using h
      have := ih htail
      simp only [ticks, List.cons_append] at this ⊢
      rw [List.takeWhile_cons_of_pos (by simpa using hc), List.takeWhile_cons_of_pos (by simpa using hc),
        List.length_cons, List.length_cons, this]
    · simp only [ticks, List.cons_append]
      rw [List.takeWhile_cons_of_neg (by simpa using hc), List.takeWhile_cons_of_neg (by simpa using hc)]

/-- A text that ends in no backtick, and all of whose runs are shorter than the closing one, is read up to that. -/
private theorem CodeSpan.body?_of_shorter {size : Nat} {body rest : List Char} (hsize : 0 < size)
    (hshorter : ∀ k, List.replicate k '\x60' <:+: body → k < size) (hlast : body.getLast? ≠ some '\x60')
    (hrest : rest.head? ≠ some '\x60') (inside : Bool) (hinside : body = [] → inside = false) :
    body? size inside (body ++ (List.replicate size '\x60' ++ rest)) = some body := by
  induction body generalizing inside with
  | nil =>
    obtain ⟨n, rfl⟩ := Nat.exists_eq_add_of_le' hsize
    rw [List.nil_append, List.replicate_succ, List.cons_append, body?, if_pos rfl, hinside rfl,
      ticks_replicate n hrest, if_pos (by simp)]
  | cons c body ih =>
    have htail (k : Nat) (hk : List.replicate k '\x60' <:+: body) : k < size :=
      hshorter k (List.infix_cons hk)
    rw [List.cons_append, body?]
    by_cases hc : c = '\x60'
    · -- The last character is another, so this run ends inside the text.
      have hne : body ≠ [] := by
        rintro rfl
        exact hlast (by rw [hc]; rfl)
      have hend : body.getLast? ≠ some '\x60' := by rwa [List.getLast?_cons_of_ne_nil hne] at hlast
      have hother : ∃ d ∈ body, d ≠ '\x60' := by
        refine ⟨body.getLast hne, List.getLast_mem hne, fun h => hend ?_⟩
        rw [List.getLast?_eq_some_getLast hne, h]
      have hrun : ticks body + 1 < size := by
        refine hshorter _ (List.IsPrefix.isInfix ?_)
        rw [hc, List.replicate_succ, List.cons_prefix_cons]
        exact ⟨rfl, prefix_run '\x60' body⟩
      rw [if_pos hc, ticks_append hother, if_neg, ih htail hend _ fun h => absurd h hne]
      · rfl
      · simp only [Bool.and_eq_true, beq_iff_eq]
        omega
    · have hend : body.getLast? ≠ some '\x60' := by
        by_cases hne : body = []
        · simp [hne]
        · rwa [List.getLast?_cons_of_ne_nil hne] at hlast
      rw [if_neg hc, ih htail hend _ fun _ => rfl]
      rfl

/-! ### Written code spans -/

/-- A value as it stands between the runs. -/
def padded (value : List Char) : List Char :=
  if needsPadding value then ' ' :: value ++ [' '] else value

section

variable {value : List Char}

private theorem longestRun_padded (value : List Char) :
    Print.longestRun '\x60' 0 0 (padded value) = Print.longestRun '\x60' 0 0 value := by
  unfold padded
  split
  · rw [longestRun_concat (by decide), Print.longestRun, if_neg (by decide)]
    rfl
  · rfl

theorem padded_ends (hne : value ≠ []) :
    padded value ≠ [] ∧ (padded value).head? ≠ some '\x60' ∧ (padded value).getLast? ≠ some '\x60' := by
  unfold padded
  by_cases hpad : needsPadding value = true
  · rw [if_pos hpad, List.getLast?_concat]
    simp
  · rw [if_neg hpad]
    simp only [needsPadding, Bool.or_eq_true, beq_iff_eq, not_or] at hpad
    exact ⟨hne, hpad.1⟩

/-- The reader takes off the spaces that were put around a value, and no others. -/
private theorem CodeSpan.value_padded (hfeed : '\n' ∉ value) : CodeSpan.value (padded value) = value := by
  unfold padded
  by_cases hpad : needsPadding value = true
  · have hflat : (' ' :: value ++ [' ']).map (fun c => if c = '\n' then ' ' else c) = ' ' :: value ++ [' '] :=
      flatten_eq (by simpa using hfeed)
    -- A value that is padded is not all spaces.
    have hany : value.any (· != ' ') = true := by
      simp only [needsPadding, Bool.or_eq_true, Bool.and_eq_true, beq_iff_eq] at hpad
      rcases hpad with (hhead | hlast) | ⟨-, hany⟩
      · exact List.any_eq_true.2 ⟨_, List.mem_of_head? hhead, by decide⟩
      · exact List.any_eq_true.2 ⟨_, List.mem_of_getLast? hlast, by decide⟩
      · exact hany
    rw [if_pos hpad, CodeSpan.value, hflat, if_pos]
    · simp
    · refine ⟨by simp, rfl, List.getLast?_concat, ?_⟩
      simp [hany]
  · have hflat : value.map (fun c => if c = '\n' then ' ' else c) = value := flatten_eq hfeed
    rw [if_neg hpad, CodeSpan.value, hflat, if_neg]
    rintro ⟨hlength, hhead, hlast, hany⟩
    refine hpad ?_
    simp [needsPadding, hlength, hhead, hlast, hany]

end

/-- What is written for a value is read as a code span with that value, unless a backtick comes behind it. -/
theorem readCode_codeSpanText {value : List Char} (hne : value ≠ []) (hfeed : '\n' ∉ value) {rest : List Char}
    (hrest : rest.head? ≠ some '\x60') (r : Reading) (index : Nat) :
    ∃ cs, codeSpanText value = '\x60' :: cs ∧
      readCode r index (cs ++ rest) =
        (r.push (.node index (index + cs.length + 1) (.inlineCode (String.ofList value)) []), cs.length) := by
  obtain ⟨hpadded, hhead, hlast⟩ := padded_ends hne
  have hflat := flatten_eq hfeed
  generalize hn : Print.longestRun '\x60' 0 0 value = n
  have hshorter (k : Nat) (hk : List.replicate k '\x60' <:+: padded value) : k < n + 1 := by
    have := le_longestRun hk
    rw [longestRun_padded, hn] at this
    omega
  refine ⟨List.replicate n '\x60' ++ (padded value ++ List.replicate (n + 1) '\x60'), ?_, ?_⟩
  · rw [codeSpanText, hflat, hn, padded, List.replicate_succ]
    simp
  · have hticks : CodeSpan.ticks (List.replicate n '\x60' ++
        (padded value ++ (List.replicate (n + 1) '\x60' ++ rest))) = n := by
      refine CodeSpan.ticks_replicate n ?_
      rwa [List.head?_append_of_ne_nil _ hpadded]
    have hbody := CodeSpan.body?_of_shorter (Nat.succ_pos n) hshorter hlast hrest false fun _ => rfl
    rw [List.append_assoc, List.append_assoc, readCode]
    dsimp only
    rw [hticks, List.drop_left' List.length_replicate, hbody]
    dsimp only
    rw [CodeSpan.value_padded hfeed]
    simp only [List.length_append, List.length_replicate]
    congr 1
    · congr 2
      omega
    · omega

/-- A code span comes back from what is written for its value, whatever text comes after it that does not go on with its
last run. -/
theorem readCode_inlineCodeText {value : String} (hne : value ≠ "") (hfeed : '\n' ∉ value.toList) {rest : List Char}
    (hrest : rest.head? ≠ some '\x60') (r : Reading) (index : Nat) :
    ∃ cs, inlineCodeText (.text value) = .ok ('\x60' :: cs) ∧
      readCode r index (cs ++ rest) = (r.push (.node index (index + cs.length + 1) (.inlineCode value) []), cs.length) := by
  have hchars : value.toList ≠ [] := mt String.toList_eq_nil_iff.1 hne
  obtain ⟨cs, htext, hread⟩ := readCode_codeSpanText hchars hfeed hrest r index
  rw [String.ofList_toList] at hread
  exact ⟨cs, congrArg Except.ok htext, hread⟩

/-- A value that starts with a backtick and ends in two is written between three of them and spaces. -/
theorem readCode_inlineCodeText_backticks :
    inlineCodeText (.text "`a``") = .ok "``` `a`` ```".toList ∧
      readCode ⟨[], []⟩ 0 "`` `a`` ```-`".toList = (⟨[.node 0 12 (.inlineCode "`a``") []], []⟩, 11) := by
  have hrest : ['-', '\x60'].head? ≠ some '\x60' := by decide
  obtain ⟨cs, hprinted, hread⟩ :=
    readCode_inlineCodeText (by decide : "`a``" ≠ "") (by decide) hrest ⟨[], []⟩ 0
  have htext : inlineCodeText (.text "`a``") = .ok "``` `a`` ```".toList :=
    congrArg Except.ok (by decide +kernel : codeSpanText "`a``".toList = _)
  rw [htext] at hprinted
  obtain rfl : "`` `a`` ```".toList = cs := (List.cons.inj (Except.ok.inj hprinted)).2
  exact ⟨htext, hread⟩

end MarkdownTree.Scan
