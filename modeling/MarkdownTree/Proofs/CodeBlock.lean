import MarkdownTree.Proofs.Fence
import MarkdownTree.Proofs.PlainPrint

/-!
# Code blocks come back

A code block is written between fences that are longer than all runs of their mark in its value, so no line of the value
closes it, and it comes back in all containers (`scan_printTree_code`).  What its fence says comes back with it unless
that goes on with the mark of the fence (`heardCode_eq_iff`): then the opening fence is longer than the closing one, and
nothing closes the block (`scan_printTree_info`).
-/

namespace MarkdownTree

open Text Print Scan

/-! ### Lines of code blocks -/

/-- The mark of the fences around a code block. -/
def fenceMark (fence : FenceMark) (info : List Char) : Char :=
  if fence = .backtick ∧ '\x60' ∈ info then '~' else fence.char

/-- How long the fences around a value are: longer than any run of their mark in it. -/
def fenceSize (mark : Char) (value : List Char) : Nat :=
  max 3 (Print.longestRun mark 0 0 value + 1)

def fenceOf (mark : Char) (value : List Char) : List Char :=
  List.replicate (fenceSize mark value) mark

/-- The lines of a value, none if it is empty. -/
def valueLines (value : List Char) : List (List Char) :=
  if value = [] then [] else fields '\n' value

/-- The lines of a code block. -/
def codeLines (mark : Char) (info value : List Char) : List (List Char) :=
  (fenceOf mark value ++ info) :: (valueLines value ++ [fenceOf mark value])

theorem mem_fields_of_valueLines {line value : List Char} (h : line ∈ valueLines value) : line ∈ fields '\n' value := by
  rw [valueLines] at h
  split at h
  · cases h
  · exact h

theorem join_valueLines (value : List Char) : join ['\n'] (valueLines value) = value := by
  rw [valueLines]
  split
  · rename_i hvalue
    rw [hvalue]
    rfl
  · exact join_fields '\n' value

theorem join_valueLines_concat (value line : List Char) :
    join ['\n'] (valueLines value ++ [line]) = (if value = [] then [] else value ++ ['\n']) ++ line := by
  rw [valueLines]
  split
  · rfl
  · rw [join_concat (fields_ne_nil '\n' value), join_fields, List.append_assoc, List.singleton_append]

private theorem fencedText_eq (mark : Char) (info value : List Char) :
    fencedText mark info value = join ['\n'] (codeLines mark info value) := by
  have hne : valueLines value ++ [fenceOf mark value] ≠ [] := by simp
  obtain ⟨line, lines, hlines⟩ := List.exists_cons_of_ne_nil hne
  rw [codeLines, hlines, join_cons_cons, ← hlines, join_valueLines_concat]
  simp [fencedText, fenceOf, fenceSize]

theorem fenceMark_cases (fence : FenceMark) (info : List Char) :
    (fenceMark fence info = '\x60' ∨ fenceMark fence info = '~') ∧
      (fenceMark fence info = '\x60' → '\x60' ∉ info) := by
  rw [fenceMark]
  split
  · exact ⟨.inr rfl, fun h => absurd h (by decide)⟩
  · rename_i hnot
    cases fence with
    | backtick => exact ⟨.inl rfl, fun _ htick => hnot ⟨rfl, htick⟩⟩
    | tilde => exact ⟨.inr rfl, fun h => absurd h (by decide)⟩

/-! ### Printing -/

/-- The text in which a fence says a language and details. -/
def infoOf (lang details : Option String) : List Char :=
  infoText (lang.map String.toList) (details.map String.toList)

section

variable {lang details : Option String} (h : IsWords (lang.map String.toList) (details.map String.toList))
include h

private theorem infoValue_eq : infoValue (.ofText? lang) (.ofText? details) =
    .text (String.ofList (infoOf lang details)) := by
  have htruthy {s : String} (hs : s.toList ≠ []) : (Value.text s).truthy = true := by
    simpa [Value.truthy] using hs
  cases lang with
  | none =>
    cases details with
    | none => rfl
    | some details => cases h
  | some lang =>
    cases details with
    | none => simp [infoValue, Value.ofText?, Value.truthy, infoOf, infoText]
    | some details =>
      have hlang := htruthy h.ne_nil
      cases h with
      | more _ _ hdetails =>
        have hdetails := htruthy (isTrimmed_iff.1 hdetails).1
        simp [infoValue, Value.ofText?, hlang, hdetails, Value.plainText, infoOf, infoText, String.ext_iff]

theorem codeBlockText_eq (fence : FenceMark) (value : String) :
    codeBlockText fence (.ofText? lang) (.ofText? details) (.text value) =
      .ok (join ['\n'] (codeLines (fenceMark fence (infoOf lang details)) (infoOf lang details) value.toList)) := by
  generalize hinfo : infoOf lang details = info
  rw [codeBlockText, infoValue_eq h, hinfo, ← fencedText_eq]
  cases fence with
  | backtick =>
    show Except.ok (fencedText (if (String.ofList info).toList.contains '\x60' then '~' else '\x60')
      (String.ofList info).toList value.toList) = _
    rw [String.toList_ofList]
    simp [fenceMark, FenceMark.char]
  | tilde =>
    show Except.ok (fencedText '~' (String.ofList info).toList value.toList) = _
    rw [String.toList_ofList]
    rfl

private theorem gives_codeBlock (q : PrintOptions) (s : Scene) (value : String) :
    Gives false ((Printer.standard q).render s (printed (.node () (.codeBlock value lang details) [])))
      (join ['\n'] (codeLines (fenceMark q.fence (infoOf lang details)) (infoOf lang details) value.toList)) := by
  rw [show printed (.node () (.codeBlock value lang details) []) =
    .node .codeBlock (Content.codeBlock value lang details).fields none [] none from rfl, Printer.render]
  exact gives_bind (gives_lift rfl) (gives_lift (codeBlockText_eq h q.fence value))

end

/-! ### Reading -/

namespace Scan

/-- The fence that the first line of a code block opens, with the marks that the text after it starts with. -/
def codeFence (mark : Char) (info value : List Char) : Fence :=
  ⟨mark, fenceSize mark value + (info.takeWhile (· == mark)).length, info.dropWhile (· == mark)⟩

/-- The value that the lines of a code block are read as: with a longer fence before them, they all belong to it. -/
def heardValue (mark : Char) (info value : List Char) : List Char :=
  join ['\n'] (if info.head? = some mark then valueLines value ++ [fenceOf mark value] else valueLines value)

/-- The block that the lines of a code block are read as. -/
def heardCode (mark : Char) (info value : List Char) : Tree Unit :=
  .node () (.codeBlock (String.ofList (heardValue mark info value)) (optionText (codeFence mark info value).words.1)
    (optionText (codeFence mark info value).words.2)) []

section

variable {mark : Char} {info value : List Char}

theorem fenceSize_bounds (mark : Char) (value : List Char) :
    3 ≤ fenceSize mark value ∧ Print.longestRun mark 0 0 value < fenceSize mark value := by
  rw [fenceSize]
  omega

theorem exists_fenceOf (mark : Char) (value : List Char) : ∃ n, fenceOf mark value = mark :: List.replicate n mark := by
  obtain ⟨hthree, -⟩ := fenceSize_bounds mark value
  obtain ⟨n, hn⟩ := Nat.exists_eq_add_of_le' (by omega : 1 ≤ fenceSize mark value)
  exact ⟨n, by rw [fenceOf, hn, List.replicate_succ]⟩

theorem isBlank_of_fence (hmark : mark = '\x60' ∨ mark = '~') : isBlank mark = false := by
  rcases hmark with rfl | rfl <;> decide

theorem opening?_codeFence (hmark : mark = '\x60' ∨ mark = '~') (hopen : mark = '\x60' → '\x60' ∉ info) :
    Fence.opening? (fenceOf mark value ++ info) = some (codeFence mark info value) := by
  obtain ⟨hthree, -⟩ := fenceSize_bounds mark value
  have hrest : (info.dropWhile (· == mark)).head? ≠ some mark := fun h => by
    have := List.head?_dropWhile_not (· == mark) info
    rw [h] at this
    simp at this
  have hline : fenceOf mark value ++ info =
      List.replicate (fenceSize mark value + (info.takeWhile (· == mark)).length) mark ++ info.dropWhile (· == mark) := by
    rw [← List.replicate_append_replicate, List.append_assoc, ← takeWhile_beq, List.takeWhile_append_dropWhile, fenceOf]
  rw [hline, codeFence]
  exact Fence.opening?_run hmark (by omega) hrest fun h hmem => hopen h ((List.dropWhile_sublist _).subset hmem)

/-- The fence at the end closes the one at the start unless that is longer by what stands behind it. -/
theorem closedBy_codeFence (hmark : mark = '\x60' ∨ mark = '~') (info value : List Char) :
    (codeFence mark info value).closedBy (Text.trimStart (fenceOf mark value)) = true ↔ info.head? ≠ some mark := by
  obtain ⟨n, hn⟩ := exists_fenceOf mark value
  have htrim : Text.trimStart (fenceOf mark value) =
      List.replicate (fenceSize mark value) (codeFence mark info value).mark := by
    rw [hn, Text.trimStart, List.dropWhile_cons_of_neg (by simp [isBlank_of_fence hmark]), ← hn]
    rfl
  rw [htrim, Fence.closedBy_run, decide_eq_true_iff, codeFence, add_le_iff_nonpos_right, Nat.le_zero,
    List.length_eq_zero_iff]
  cases info with
  | nil => simp
  | cons c cs => simp [List.takeWhile_cons]

variable (hmark : mark = '\x60' ∨ mark = '~') (hopen : mark = '\x60' → '\x60' ∉ info)
include hmark hopen

private theorem segments_codeLines (s : Setting) (limit : Value) (gap : Bool) {ls : List Line}
    (hls : ls.map Line.text = codeLines mark info value) : ∃ span notes, s.segments limit gap ls =
      [⟨gap, .code span (heardValue mark info value) (codeFence mark info value).words.1
        (codeFence mark info value).words.2 notes⟩] := by
  obtain ⟨-, hlonger⟩ := fenceSize_bounds mark value
  have hblank := isBlank_of_fence hmark
  obtain ⟨n, hn⟩ := exists_fenceOf mark value
  obtain ⟨l, more, rfl, hl, hmore⟩ := List.map_eq_cons_iff.1 hls
  obtain ⟨body, last, rfl, hbody, hlast⟩ := List.map_eq_append_iff.1 hmore
  obtain ⟨x, rfl, hx⟩ := List.map_eq_singleton_iff.1 hlast
  have hfence : Fence.opening? l.text = some (codeFence mark info value) := by
    rw [hl]
    exact opening?_codeFence hmark hopen
  have hhead : l.text = mark :: (List.replicate n mark ++ info) := by rw [hl, hn]; rfl
  have hinner : ∀ y ∈ body, (codeFence mark info value).closedBy (Text.trimStart y.text) = false := fun y hy => by
    have hline : y.text ∈ valueLines value := by
      rw [← hbody]
      exact List.mem_map_of_mem hy
    exact Fence.closedBy_field (mem_fields_of_valueLines hline) (Nat.lt_add_right _ hlonger)
  have hcloses := closedBy_codeFence hmark info value
  rw [← hx] at hcloses
  rw [heardValue]
  split
  -- A longer fence is not closed by the last line, which is then one more line of the value.
  · rename_i hrun
    have hall : ∀ y ∈ body ++ [x], (codeFence mark info value).closedBy (Text.trimStart y.text) = false := by
      refine List.forall_mem_append.2 ⟨hinner, List.forall_mem_singleton.2 ?_⟩
      exact Bool.eq_false_iff.2 fun h => hcloses.1 h hrun
    have hlines : (body ++ [x]).map Line.text = valueLines value ++ [fenceOf mark value] := by
      rw [List.map_append, hbody, List.map_singleton, hx]
    have hsegments := s.segments_fencedCode none hall (by simp) hhead hblank hfence limit gap
    rwa [hlines, Option.toList_none, List.append_nil] at hsegments
  · rename_i hrun
    rw [← hbody]
    refine s.segments_fencedCode (some x) hinner ?_ hhead hblank hfence limit gap
    rintro _ ⟨⟩
    refine ⟨?_, hcloses.2 hrun⟩
    rw [Line.indent_of_head (hx.trans hn) hblank]
    decide

/-- The lines of a code block read alike wherever they stand. -/
private theorem readBlocks_codeLines (o : ScanOptions) (room : Nat) (inItem : Bool) {ls : List Line}
    (hls : ls.map Line.text = codeLines mark info value) :
    (readBlocks o room inItem ls).trees.map Tree.erase = [heardCode mark info value] ∧
      (readBlocks o room inItem ls).loose = false := by
  have hassemble (inner : Inner) (s : Setting) :
      (assemble inner (s.segments o.nestingLimit false ls)).trees.map Tree.erase = [heardCode mark info value] ∧
        (assemble inner (s.segments o.nestingLimit false ls)).loose = false := by
    obtain ⟨span, notes, hsegments⟩ := segments_codeLines hmark hopen s o.nestingLimit false hls
    rw [hsegments]
    exact ⟨rfl, rfl⟩
  cases room with
  | zero => exact hassemble _ _
  | succ room => exact hassemble _ _

omit hopen in
private theorem isInner_codeLines (hnewline : '\n' ∉ info) (htrim : trim info = info)
    (hvalue : ∀ line ∈ fields '\n' value, line.getLast? ≠ some '\r') : IsInner (codeLines mark info value) := by
  have hblank := isBlank_of_fence hmark
  obtain ⟨n, hn⟩ := exists_fenceOf mark value
  have hplain : ∀ c ∈ fenceOf mark value, isBlank c = false := fun c hc => by rwa [List.eq_of_mem_replicate hc]
  have hfence : '\n' ∉ fenceOf mark value := fun h => absurd (hplain _ h) (by decide)
  refine ⟨⟨mark, List.replicate n mark ++ info, _, by rw [codeLines, hn]; rfl, hblank, ?_, mark, .head _, ?_⟩,
    List.forall_mem_cons.2 ⟨⟨?_, ?_⟩, List.forall_mem_append.2 ⟨fun line hline => ?_,
      List.forall_mem_singleton.2 ⟨hfence, ?_⟩⟩⟩, fun line hline => ?_⟩
  · rcases hmark with rfl | rfl <;> decide
  · rcases hmark with rfl | rfl <;> decide
  · rw [List.mem_append, not_or]
    exact ⟨hfence, hnewline⟩
  · intro hreturn
    rw [List.getLast?_append] at hreturn
    cases hlast : info.getLast? with
    | none =>
      rw [hlast, Option.none_or] at hreturn
      exact absurd (hplain _ (List.mem_of_getLast? hreturn)) (by decide)
    | some c =>
      rw [hlast, Option.some_or] at hreturn
      cases hreturn
      rw [← htrim, trim] at hlast
      exact absurd (getLast?_dropEndWhile hlast) (by decide)
  · have hfield := mem_fields_of_valueLines hline
    exact ⟨newline_notMem_fields value line hfield, hvalue line hfield⟩
  · intro hreturn
    exact absurd (hplain _ (List.mem_of_getLast? hreturn)) (by decide)
  · rw [codeLines, ← List.cons_append, List.getLast?_concat, Option.mem_some_iff] at hline
    rw [← hline, hn, List.all_cons, hblank]
    rfl

omit hmark hopen in
/-- The block is read as what it is unless the text after the fence goes on with the mark of the fence. -/
theorem heardCode_eq_iff {lang details : Option (List Char)} (h : IsWords lang details) :
    heardCode mark (infoText lang details) value =
        .node () (.codeBlock (String.ofList value) (optionText lang) (optionText details)) [] ↔
      (infoText lang details).head? ≠ some mark := by
  constructor
  · intro heq hrun
    have hvalue : heardValue mark (infoText lang details) value = value := by
      simp only [heardCode, Tree.node.injEq, Content.codeBlock.injEq] at heq
      exact String.ofList_injective heq.2.1.1
    -- The closing fence is among what is read.
    have hlength := congrArg List.length hvalue
    rw [heardValue, if_pos hrun, join_valueLines_concat] at hlength
    obtain ⟨n, hn⟩ := exists_fenceOf mark value
    simp only [hn, List.length_append, List.length_cons] at hlength
    split at hlength
    · rename_i hnil
      rw [hnil, List.length_nil] at hlength
      omega
    · rw [List.length_append] at hlength
      omega
  · intro hrun
    have hinfo : (codeFence mark (infoText lang details) value).info = infoText lang details := by
      show (infoText lang details).dropWhile (· == mark) = _
      cases hcs : infoText lang details with
      | nil => rfl
      | cons c cs =>
        rw [hcs] at hrun
        exact List.dropWhile_cons_of_neg (by simpa using hrun)
    rw [heardCode, h.words_eq hinfo, heardValue, if_neg hrun, join_valueLines]

end

end Scan

/-! ### Code blocks in holders -/

/-- Printing a code block in holders gives its lines as they stand in them. -/
private theorem printTree_code (q : PrintOptions) {holders : List Holder} {value : String}
    {lang details : Option String}
    (hwords : IsWords (lang.map String.toList) (details.map String.toList)) (hnewline : '\n' ∉ infoOf lang details)
    (hvalue : ∀ line ∈ fields '\n' value.toList, line.getLast? ≠ some '\r')
    (hnumbers : ∀ h ∈ holders, h.Numbered) :
    printTree q (heldDocument holders (.node () (.codeBlock value lang details) [])) =
      .ok (join ['\n'] (heldLines q holders
        (codeLines (fenceMark q.fence (infoOf lang details)) (infoOf lang details) value.toList)) ++ ['\n']) :=
  printTree_heldDocument q (isInner_codeLines (fenceMark_cases q.fence _).1 hnewline hwords.trim_infoText hvalue)
    (fun s _ => gives_codeBlock hwords q s value) hnumbers

/-- A code block in holders is printed and read again, and comes back unless the text after its fence goes on with the
mark of the fence. -/
private theorem exists_scan_code {α : Type} (o : ScanOptions) (q : PrintOptions) (path : Option String) {t : Tree α}
    {holders : List Holder} {value : String} {lang details : Option String}
    (hwords : IsWords (lang.map String.toList) (details.map String.toList)) (hnewline : '\n' ∉ infoOf lang details)
    (hvalue : ∀ line ∈ fields '\n' value.toList, line.getLast? ≠ some '\r')
    (ht : t.erase = heldDocument holders (.node () (.codeBlock value lang details) []))
    (hdepth : holders.length ≤ o.maxNesting) (hnumbers : ∀ h ∈ holders, h.Numbered) :
    ∃ printed u, printTree q t = .ok printed ∧ (Scan.scan o path (.ofList printed)).tree = some u ∧
      u.erase = heldDocument holders
        (heardCode (fenceMark q.fence (infoOf lang details)) (infoOf lang details) value.toList) ∧
      (u.erase = t.erase ↔ (infoOf lang details).head? ≠ some (fenceMark q.fence (infoOf lang details))) := by
  obtain ⟨hmark, hopen⟩ := fenceMark_cases q.fence (infoOf lang details)
  obtain ⟨printed, u, hprinted, hu, huerase⟩ := scan_printTree_held o q path
    (isInner_codeLines hmark hnewline hwords.trim_infoText hvalue) (fun s _ => gives_codeBlock hwords q s value)
    (fun room inItem ls hls => readBlocks_codeLines hmark hopen o room inItem hls) ht hdepth hnumbers
  have htext (cs : Option String) : optionText (cs.map String.toList) = cs := by
    cases cs with
    | none => rfl
    | some s => exact congrArg some String.ofList_toList
  have hheard : heardCode (fenceMark q.fence (infoOf lang details)) (infoOf lang details) value.toList = _ ↔ _ :=
    heardCode_eq_iff hwords
  rw [htext, htext, String.ofList_toList] at hheard
  refine ⟨printed, u, hprinted, hu, huerase, ?_⟩
  rw [huerase, ht, (heldDocument_injective holders).eq_iff]
  exact hheard

/-- A code block without a language comes back from what is printed for it, in quotes and lists of one item, whatever its
value is. -/
theorem scan_printTree_code {α : Type} (o : ScanOptions) (q : PrintOptions) (path : Option String) {t : Tree α}
    {holders : List Holder} {value : String}
    (ht : t.erase = heldDocument holders (.node () (.codeBlock value none none) []))
    (hdepth : holders.length ≤ o.maxNesting) (hnumbers : ∀ h ∈ holders, h.Numbered)
    (hvalue : ∀ line ∈ fields '\n' value.toList, line.getLast? ≠ some '\r') :
    ∃ printed u, printTree q t = .ok printed ∧ (Scan.scan o path (.ofList printed)).tree = some u ∧
      u.erase = t.erase := by
  have hwords : IsWords ((none : Option String).map String.toList) ((none : Option String).map String.toList) := .nothing
  obtain ⟨printed, u, hprinted, hu, -, hiff⟩ :=
    exists_scan_code o q path hwords (by decide) hvalue ht hdepth hnumbers
  exact ⟨printed, u, hprinted, hu, hiff.2 nofun⟩

/-- A value with a tab before a long run, with blank lines and with tildes, in a checked item in a quote. -/
theorem scan_printTree_code_runs :
    let t := heldDocument [.quote, .item (some 7) (some true)]
      (.node () (.codeBlock "\t`````\n \n\n~~~~ " none none) [])
    ∃ u, printTree {} t = .ok "> 7. [x] ``````\n>    \t`````\n>     \n>\n>    ~~~~ \n>    ``````\n".toList ∧
      (Scan.scan {} none "> 7. [x] ``````\n>    \t`````\n>     \n>\n>    ~~~~ \n>    ``````\n").tree = some u ∧
      u.erase = t.erase := by
  intro t
  have hnumbers : ∀ h ∈ [Holder.quote, .item (some 7) (some true)], h.Numbered := by decide
  have hvalue : ∀ line ∈ fields '\n' "\t`````\n \n\n~~~~ ".toList, line.getLast? ≠ some '\r' := by decide +kernel
  obtain ⟨printed, u, hprinted, hu, huerase⟩ :=
    scan_printTree_code {} {} none (t := t) rfl (by decide) hnumbers hvalue
  have hwords : IsWords ((none : Option String).map String.toList) ((none : Option String).map String.toList) := .nothing
  have htree : printTree {} t = .ok "> 7. [x] ``````\n>    \t`````\n>     \n>\n>    ~~~~ \n>    ``````\n".toList :=
    (printTree_code {} hwords (by decide) hvalue hnumbers).trans (congrArg Except.ok (by decide +kernel))
  obtain rfl := Except.ok.inj (htree.symm.trans hprinted)
  rw [String.ofList_toList] at hu
  exact ⟨u, htree, hu, huerase⟩

private theorem head?_infoOf_iff (fence : FenceMark) {lang : String} (hlang : lang.toList ≠ [])
    (details : Option String) :
    (infoOf (some lang) details).head? = some (fenceMark fence (infoOf (some lang) details)) ↔
      lang.toList.head? = some '~' ∧ (fence = .tilde ∨ '\x60' ∈ infoOf (some lang) details) := by
  have hhead : (infoOf (some lang) details).head? = lang.toList.head? := by
    show (lang.toList ++ _).head? = _
    rw [List.head?_append_of_ne_nil _ hlang]
  rw [hhead, fenceMark]
  by_cases htick : '\x60' ∈ infoOf (some lang) details
  · cases fence <;> simp [htick, FenceMark.char]
  · have hstart : lang.toList.head? ≠ some '\x60' := fun h => htick (List.mem_of_head? (hhead.trans h))
    cases fence <;> simp [htick, hstart, FenceMark.char]

/-- A code block with what a fence says comes back from what is printed for it, unless that starts with a tilde and
stands after tildes. -/
theorem scan_printTree_info {α : Type} (o : ScanOptions) (q : PrintOptions) (path : Option String) {t : Tree α}
    {holders : List Holder} {value lang : String} {details : Option String}
    (hinfo : IsInfo (some lang.toList) (details.map String.toList))
    (hvalue : ∀ line ∈ fields '\n' value.toList, line.getLast? ≠ some '\r')
    (ht : t.erase = heldDocument holders (.node () (.codeBlock value (some lang) details) []))
    (hdepth : holders.length ≤ o.maxNesting) (hnumbers : ∀ h ∈ holders, h.Numbered) :
    ∃ printed u, printTree q t = .ok printed ∧ (Scan.scan o path (.ofList printed)).tree = some u ∧
      (u.erase = t.erase ↔
        ¬(lang.toList.head? = some '~' ∧ (q.fence = .tilde ∨ '\x60' ∈ infoOf (some lang) details))) := by
  have hwords : IsWords ((some lang).map String.toList) (details.map String.toList) := hinfo.isWords.1
  obtain ⟨printed, u, hprinted, hu, -, hiff⟩ :=
    exists_scan_code o q path hwords hinfo.isWords.2 hvalue ht hdepth hnumbers
  refine ⟨printed, u, hprinted, hu, ?_⟩
  rw [hiff, ne_eq, head?_infoOf_iff q.fence hwords.ne_nil]

/-- A language that starts with a tilde comes back where the fence is of backticks. -/
theorem scan_printTree_info_backticks :
    let t := heldDocument [] (.node () (.codeBlock "x" (some "~a") (some "b c")) [])
    ∃ u, printTree {} t = .ok "```~a b c\nx\n```\n".toList ∧
      (Scan.scan {} none "```~a b c\nx\n```\n").tree = some u ∧ u.erase = t.erase := by
  intro t
  have hinfo : IsInfo (some "~a".toList) ((some "b c").map String.toList) :=
    ⟨⟨4, true, false⟩, .null, ⟨"``` ~a  b c".toList, 0⟩, [⟨['\x60', '\x60', '\x60'], 12⟩], ⟨0, 15⟩, [], [], by decide,
      by decide +kernel⟩
  have hvalue : ∀ line ∈ fields '\n' "x".toList, line.getLast? ≠ some '\r' := by decide
  have ht : t.erase = heldDocument [] (.node () (.codeBlock "x" (some "~a") (some "b c")) []) := rfl
  have hnumbers : ∀ h ∈ ([] : List Holder), h.Numbered := List.forall_mem_nil _
  obtain ⟨printed, u, hprinted, hu, hiff⟩ :=
    scan_printTree_info {} {} none hinfo hvalue ht (Nat.zero_le _) hnumbers
  have hwords : IsWords ((some "~a").map String.toList) ((some "b c").map String.toList) := hinfo.isWords.1
  have htree : printTree {} t = .ok "```~a b c\nx\n```\n".toList :=
    (printTree_code {} hwords (by decide) hvalue hnumbers).trans (congrArg Except.ok (by decide +kernel))
  obtain rfl := Except.ok.inj (htree.symm.trans hprinted)
  rw [String.ofList_toList] at hu
  exact ⟨u, htree, hu, hiff.2 (by decide)⟩

/-- Behind a fence of tildes it makes the fence longer, and the fence at the end is taken for the value. -/
theorem scan_printTree_info_tilde :
    let t := heldDocument [] (.node () (.codeBlock "" (some "~`a") none) [])
    IsInfo (some "~`a".toList) none ∧
      printTree {} t = .ok "~~~~`a\n~~~\n".toList ∧
      ∃ u, (Scan.scan {} none "~~~~`a\n~~~\n").tree = some u ∧
        u.erase = heldDocument [] (.node () (.codeBlock "~~~" (some "`a") none) []) ∧ u.erase ≠ t.erase := by
  intro t
  have hvalue : ∀ line ∈ fields '\n' "".toList, line.getLast? ≠ some '\r' := by decide
  have hinfo : IsInfo (some "~`a".toList) none :=
    ⟨⟨4, true, false⟩, .null, ⟨"~~~ ~`a".toList, 0⟩, [⟨['~', '~', '~'], 8⟩], ⟨0, 11⟩, [], [], by decide, by decide +kernel⟩
  have hwords : IsWords ((some "~`a").map String.toList) ((none : Option String).map String.toList) := hinfo.isWords.1
  have hnumbers : ∀ h ∈ ([] : List Holder), h.Numbered := List.forall_mem_nil _
  have htree : printTree {} t = .ok "~~~~`a\n~~~\n".toList :=
    (printTree_code {} hwords (by decide) hvalue hnumbers).trans (congrArg Except.ok (by decide +kernel))
  have ht : t.erase = heldDocument [] (.node () (.codeBlock "" (some "~`a") none) []) := rfl
  obtain ⟨printed, u, hprinted, hu, huerase, hiff⟩ :=
    exists_scan_code {} {} none hwords (by decide) hvalue ht (Nat.zero_le _) hnumbers
  obtain rfl := Except.ok.inj (htree.symm.trans hprinted)
  rw [String.ofList_toList] at hu
  have hheard : heardCode '~' "~`a".toList [] = .node () (.codeBlock "~~~" (some "`a") none) [] := by decide +kernel
  refine ⟨hinfo, htree, u, hu, ?_, ?_⟩
  · exact huerase.trans (congrArg (heldDocument []) hheard)
  · exact fun h => hiff.1 h (by decide)

end MarkdownTree
