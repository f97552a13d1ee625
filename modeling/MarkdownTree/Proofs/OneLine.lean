import MarkdownTree.Proofs.Plain
import MarkdownTree.Proofs.Respelling

/-!
# Documents of one line

A line that needs no escape at its start is a paragraph, a rule or the start of a list, and nothing else
(`Setting.chunk_unmarked`), so that is what a document of this line is (`exists_scan_unmarked`).  It is a paragraph
where no delimiter in it stays text: a rule and a list marker would leave some in the texts of the inline content
(`Unmarked.opens_paragraph`).
-/

namespace MarkdownTree.Scan

open Text Print

/-- A line without blanks at its ends that opens neither code nor a heading nor a quote. -/
structure Unmarked (line : List Char) : Prop where
  trimmed : IsTrimmed line
  head : ∀ c ∈ line.head?, isLineMark c = false ∧ c ≠ '\x60'
  newline : '\n' ∉ line

private theorem ne_of_isLineMark {c d : Char} (hc : isLineMark c = false) (hd : isLineMark d = true) : c ≠ d := by
  rintro rfl
  rw [hc] at hd
  cases hd

/-- A line that needs no escape at its start, and in which neither code nor links nor breaks can start. -/
theorem unmarked_of_plain {line : List Char} (htrimmed : IsTrimmed line) (hstart : escapeLineStart line = line)
    (hcs : ∀ c ∈ line, startsOther c = false) : Unmarked line where
  trimmed := htrimmed
  head c hc := by
    refine ⟨(escapeLineStart_eq_self_iff.1 hstart).1 c hc, ?_⟩
    rintro rfl
    exact absurd (hcs _ (List.mem_of_mem_head? hc)) (by decide)
  newline hmem := absurd (hcs _ hmem) (by decide)

namespace Unmarked

variable {line : List Char} (h : Unmarked line)
include h

private theorem exists_cons : ∃ c cs, line = c :: cs ∧ isBlank c = false ∧ isLineMark c = false ∧ c ≠ '\x60' := by
  obtain ⟨c, hc, hblank⟩ := h.trimmed.1
  obtain ⟨cs, rfl⟩ := List.head?_eq_some_iff.1 hc
  exact ⟨c, cs, rfl, hblank, h.head c hc⟩

private theorem trimEnd_eq : Text.trimEnd line = line :=
  dropEndWhile_eq_self h.trimmed.2

private theorem dropReturn_eq : dropReturn line = line := by
  refine if_neg fun hlast => ?_
  have hblank := h.trimmed.2 '\r' hlast
  cases hblank

private theorem opensFrontMatter_eq_false : opensFrontMatter line = false := by
  obtain ⟨c, cs, rfl, -, hc, -⟩ := h.exists_cons
  simp [opensFrontMatter, (ne_of_isLineMark hc (show isLineMark '-' = true from rfl)).symm]

/-! ### Delimiters at the start -/

/-- A list marker is a star or a number with a mark after it. -/
private theorem marker?_eq_none (hnumber : ¬StartsNumbered line)
    (hstar : ∀ cs, line = '*' :: cs → endsOrGap cs = false) :
    marker? line = none := by
  obtain ⟨c, cs, rfl, -, hc, -⟩ := h.exists_cons
  have hhyphen := ne_of_isLineMark hc (show isLineMark '-' = true from rfl)
  have hplus := ne_of_isLineMark hc (show isLineMark '+' = true from rfl)
  rw [marker?, if_neg]
  · dsimp only
    split
    · rename_i d after hdrop
      refine if_neg fun hcond => hnumber ⟨_, d, after, ?_, ?_, hcond.1, hcond.2.1, hcond.2.2.1⟩
      · rw [← hdrop, takeWhile_append_drop]
      · exact fun x hx => List.all_eq_true.1 List.all_takeWhile x hx
    · rfl
  · rintro ⟨rfl | rfl | rfl, hgap⟩
    · exact hhyphen rfl
    · exact hplus rfl
    · rw [hstar cs rfl] at hgap
      cases hgap

/-- A line that reads as text without delimiters and emphasis is neither a rule nor the start of a list. -/
theorem opens_paragraph (hnumber : ¬StartsNumbered line) (hcs : ∀ c ∈ line, startsOther c = false)
    (htexts : ∀ t ∈ (readInline line).trees, ∀ value, t.content = .text value →
      ∀ d : Delimiter, d.char ∉ value.toList) :
    isRule line = false ∧ marker? line = none := by
  obtain ⟨c, cs, hline, -, hc, -⟩ := id h.exists_cons
  by_cases hd : ∃ d : Delimiter, c = d.char
  · obtain ⟨d, rfl⟩ := hd
    subst hline
    -- Something that is neither this delimiter nor a gap comes after the delimiters.
    obtain ⟨a, ha, hne, hblank, hnext⟩ :=
      exists_of_run (List.forall_mem_cons.1 hcs).2 fun t ht value hvalue => htexts t ht value hvalue d
    have hgap := isGap_of_not_isBlank hblank
    constructor
    · rw [isRule, Bool.and_eq_false_iff, Bool.and_eq_false_iff]
      refine .inl (.inr (List.all_eq_false.2 ⟨a, ha, ?_⟩))
      simp [hne, hgap]
    · refine h.marker?_eq_none hnumber fun cs' hcs' => ?_
      obtain ⟨hstar, rfl⟩ := List.cons.inj hcs'
      obtain ⟨x, hx, hxgap⟩ : ∃ x, cs.head? = some x ∧ isGap x = false := by
        rcases hnext with hnext | hnext
        · exact ⟨_, hnext, hstar ▸ by decide⟩
        · exact ⟨a, hnext, hgap⟩
      obtain ⟨xs, rfl⟩ := List.head?_eq_some_iff.1 hx
      exact hxgap
  · have hstar : c ≠ '*' := fun heq => hd ⟨.star, heq⟩
    have hunder : c ≠ '_' := fun heq => hd ⟨.underscore, heq⟩
    refine ⟨?_, h.marker?_eq_none hnumber fun cs' hcs' => ?_⟩
    · rw [hline]
      exact isRule_eq_false (ne_of_isLineMark hc rfl) hstar hunder
    · rw [hline] at hcs'
      exact absurd (List.cons.inj hcs').1 hstar

end Unmarked

/-! ### Reading -/

/-- A line that stands alone is a paragraph, or else it is a rule or the start of a list. -/
theorem Setting.chunk_unmarked (s : Setting) (limit : Value) {l : Line} (h : Unmarked l.text) :
    s.chunk limit l [] = (.paragraph ⟨l.offset, l.stop⟩ [l] (s.paragraphNotes limit l l), 0) ∨
      (isRule l.text = true ∨ marker? l.text ≠ none) ∧
        ∀ inner, (chunkTree inner (s.chunk limit l []).1).1.kind ≠ .paragraph := by
  obtain ⟨c, cs, htext, hblank, hc, htick⟩ := h.exists_cons
  have hquote : (l.text.head? == some '>') = false := by
    rw [htext]
    simpa using ne_of_isLineMark hc (show isLineMark '>' = true from rfl)
  have hfence : Fence.opening? l.text = none := by
    rw [htext]
    exact opening?_eq_none htick (ne_of_isLineMark hc rfl)
  have hheading : headingDepth? l.text = none := by
    rw [htext]
    exact headingDepth?_eq_none (ne_of_isLineMark hc rfl)
  unfold Setting.chunk
  dsimp only
  rw [Line.indent_of_head htext hblank, Line.trimStart_of_head htext hblank, if_neg (by decide), hfence, hheading,
    hquote, Bool.and_false]
  dsimp only
  split
  · rename_i hrule
    exact .inr ⟨.inl hrule, fun inner hkind => by cases hkind⟩
  · rw [if_neg Bool.false_ne_true]
    split
    · rename_i m hm
      refine .inr ⟨.inr fun hnone => ?_, fun inner hkind => by cases hkind⟩
      split at hm
      · unfold Marker.read? at hm
        dsimp only at hm
        rw [Line.trimStart_of_head htext hblank, hnone] at hm
        split at hm <;> cases hm
      · cases hm
    · refine .inl ?_
      have hline : l.trimStart.trimEnd = l := by
        rw [Line.trimStart_of_head htext hblank, Line.trimEnd, h.trimEnd_eq]
      unfold Setting.paragraph
      dsimp only [List.takeWhile_nil, List.length_nil, List.drop_zero, List.head?_nil]
      rw [Setting.paragraphLines, hline, Line.trimStart_of_head htext hblank]
      rfl

/-- A document of a line is one paragraph of its inline content, or it has no paragraph as the line is a rule or starts
a list. -/
theorem exists_scan_unmarked (o : ScanOptions) (path : Option String) {line : List Char} (h : Unmarked line)
    {ending : List Char} (hending : ending = [] ∨ ending = ['\n']) :
    ∃ u, (scan o path (.ofList (line ++ ending))).tree = some u ∧
      (u.erase = .node () .root [.node () .paragraph ((readInline line).trees.map Tree.erase)] ∨
        (isRule line = true ∨ marker? line ≠ none) ∧ ∀ p ∈ u.children, p.kind ≠ .paragraph) := by
  obtain ⟨c, cs, hline, hblank, -⟩ := h.exists_cons
  have htexts : (linesOf (line ++ ending)).map Line.text = [line] :=
    text_linesOf_join (List.cons_ne_nil line []) (List.forall_mem_singleton.2 h.newline)
      (List.forall_mem_singleton.2 h.dropReturn_eq) (hending.symm.imp_right fun hnil => ⟨hnil, by simp [hline]⟩)
  obtain ⟨l, hlines, htext⟩ := List.map_eq_singleton_iff.1 htexts
  obtain ⟨u, hu, huerase⟩ := exists_scan o path (.ofList (line ++ ending))
    (splitDocument_of_head (by rw [String.toList_ofList]; exact htexts) h.opensFrontMatter_eq_false)
  obtain ⟨inner, s, hassemble⟩ := readBlocks_eq_assemble o o.maxNesting false
  refine ⟨u, hu, ?_⟩
  have hsegments : s.segments o.nestingLimit false [l] = [⟨false, (s.chunk o.nestingLimit l []).1⟩] := by
    rw [Setting.segments, if_neg (by rw [Line.isBlank_of_head (htext.trans hline) hblank]; decide)]
    dsimp only
    rw [List.drop_nil, Setting.segments]
  rw [String.toList_ofList, hlines, hassemble, hsegments, trees_assemble] at huerase
  rcases s.chunk_unmarked o.nestingLimit (htext ▸ h) with hchunk | ⟨hopens, hkind⟩
  · refine .inl (huerase.trans ?_)
    rw [hchunk]
    simp only [List.map_cons, List.map_nil, chunkTree, Tree.erase_node, erase_trees_readLines, contentOf, join, htext]
  · refine .inr ⟨htext ▸ hopens, fun p hp hparagraph => hkind inner ?_⟩
    have hchild : p.erase ∈ u.children.map Tree.erase := List.mem_map_of_mem hp
    rw [Tree.map_erase_children huerase] at hchild
    have herase : p.erase = (chunkTree inner (s.chunk o.nestingLimit l []).1).1.erase := by simpa using hchild
    have hsame := congrArg Tree.kind herase
    rwa [Tree.erase, Tree.erase, Tree.kind_map, Tree.kind_map, hparagraph, eq_comm] at hsame

end MarkdownTree.Scan
