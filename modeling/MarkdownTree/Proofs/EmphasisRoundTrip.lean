import MarkdownTree.Proofs.OneLine
import MarkdownTree.Proofs.SpellingPrint

/-!
# Emphasis comes back from what is printed

A paragraph of one line of text and emphasis comes back from what is printed for it, whatever delimiters are preferred
(`scan_printTree_emphasis`).  The line itself is one of the texts that are tried, so one of them reads back; and none of
them can be taken for anything but a paragraph.
-/

namespace MarkdownTree

open Text Scan Print

namespace Spells

variable {ts : List (Tree Unit)} {row row' : List Delimiter} {cs cs' : List Char} (h : Spells ts row cs)
  (h' : Spells ts row' cs')
include h h'

/-- Other delimiters make no blanks at the ends. -/
private theorem isTrimmed (hcs : IsTrimmed cs) : IsTrimmed cs' := by
  have hmark (d : Delimiter) : isBlank d.char = false := by cases d <;> decide
  obtain ⟨⟨c, hc, hblank⟩, hlast⟩ := hcs
  have hne : cs' ≠ [] := by
    rw [ne_eq, h'.eq_nil_iff, ← h.eq_nil_iff]
    rintro rfl
    cases hc
  obtain ⟨c', rest, rfl⟩ := List.exists_cons_of_ne_nil hne
  refine ⟨⟨c', rfl, ?_⟩, fun e he => ?_⟩
  · rcases h.head_or h' c' rfl with hc' | ⟨d, rfl⟩
    · rw [Option.mem_def.1 hc] at hc'
      cases hc'
      exact hblank
    · exact hmark d
  · rcases h.getLast_or h' with heq | ⟨d, heq⟩
    · exact hlast e (heq ▸ he)
    · rw [heq] at he
      cases he
      exact hmark d

/-- Other delimiters start nothing else. -/
private theorem startsOther_eq_false (hcs : ∀ c ∈ cs, startsOther c = false) : ∀ c ∈ cs', startsOther c = false := by
  intro c hc
  rcases h.mem_or h' c hc with hmem | ⟨d, rfl⟩
  · exact hcs c hmem
  · cases d <;> rfl

end Spells

/-- A paragraph that spells text and emphasis, in a line that needs no escape, is printed as a line that reads as it. -/
private theorem exists_printTree_line (q : PrintOptions) {line : List Char} (hline : IsTrimmed line)
    (hstart : escapeLineStart line = line) (hcs : ∀ c ∈ line, startsOther c = false) {ts : List (Tree Unit)}
    (hread : (readInline line).trees.map Tree.erase = ts)
    (htexts : ∀ x ∈ Tree.preorderList ts, ∀ value, x.content = .text value → ∀ d : Delimiter, d.char ∉ value.toList)
    (hcount : ((Tree.preorderList ts).countP fun x => isEmphasis x.kind) ≤ searchLimit) :
    ∃ text, printTree q (.node () .root [.node () .paragraph ts]) = .ok (text ++ ['\n']) ∧ Unmarked text ∧
      isRule text = false ∧ marker? text = none ∧ (readInline text).trees.map Tree.erase = ts := by
  obtain ⟨row, h⟩ := spells_readInline hcs
  rw [hread] at h
  have hplain : ∀ x ∈ Tree.preorderList ts, ∀ value, x.content = .text value →
      ∀ c ∈ value.toList, isSpecial false c = false ∧ c ≠ '\n' := by
    intro x hx value hvalue c hc
    have hother := hcs c (h.mem_of_text x hx value hvalue c hc)
    have hstar : c ≠ '*' := by
      rintro rfl
      exact htexts x hx value hvalue .star hc
    have hunder : c ≠ '_' := by
      rintro rfl
      exact htexts x hx value hvalue .underscore hc
    simp only [startsOther, Bool.or_eq_false_iff, beq_eq_false_iff_ne] at hother
    simp [isSpecial, hother, hstar, hunder]
  have hne : line ≠ [] := by
    rintro rfl
    obtain ⟨c, hc, -⟩ := hline.1
    cases hc
  obtain ⟨text, row', hprint, hspells, hreads⟩ := printTree_paragraph h q hne hplain hstart
    (by rwa [h.length_row]) ((isIntact_printed h hline hcs).2 hread)
  have htrimmed := h.isTrimmed hspells hline
  have hcs' := h.startsOther_eq_false hspells hcs
  have hstart' := h.escapeLineStart_eq_self hspells hstart
  have hread' := (isIntact_printed hspells htrimmed hcs').1 hreads
  have hunmarked := unmarked_of_plain htrimmed hstart' hcs'
  obtain ⟨hrule, hmarker⟩ := hunmarked.opens_paragraph (escapeLineStart_eq_self_iff.1 hstart').2 hcs' <| by
    intro t ht value hvalue
    refine htexts t.erase ?_ value (by rwa [Tree.erase, Tree.content_map])
    exact Tree.mem_preorderList.2 ⟨t.erase, hread' ▸ List.mem_map_of_mem ht, Tree.mem_preorder_self _⟩
  exact ⟨text, hprint, hunmarked, hrule, hmarker, hread'⟩

/-- A line that is read as one paragraph is not empty, and its inline content is all of the paragraph. -/
private theorem erase_of_paragraph (o : ScanOptions) (path : Option String) {s : String}
    (htrim : trim s.toList = s.toList) (hstart : escapeLineStart s.toList = s.toList)
    (hcs : ∀ c ∈ s.toList, startsOther c = false) {t p : Tree Position} (ht : (scan o path s).tree = some t)
    (hchildren : t.children = [p]) (hkind : p.kind = .paragraph) :
    IsTrimmed s.toList ∧
      t.erase = .node () .root [.node () .paragraph ((readInline s.toList).trees.map Tree.erase)] := by
  have hne : s.toList ≠ [] := by
    intro hnil
    have hsplit : splitDocument o.frontMatter s.toList = ([], []) := by
      rw [hnil]
      cases o.frontMatter <;> rfl
    obtain ⟨u, hu, huerase⟩ := exists_scan o path s hsplit
    rw [ht] at hu
    obtain rfl := Option.some.inj hu
    have hblocks := Tree.map_erase_children huerase
    obtain ⟨inner, setting, hassemble⟩ := readBlocks_eq_assemble o o.maxNesting false
    rw [hchildren, hassemble, Setting.segments] at hblocks
    cases hblocks
  have htrimmed := isTrimmed_iff.2 ⟨hne, htrim⟩
  obtain ⟨u, hu, hcases⟩ := exists_scan_unmarked o path (unmarked_of_plain htrimmed hstart hcs) (.inl rfl)
  rw [List.append_nil, String.ofList_toList, ht] at hu
  obtain rfl := Option.some.inj hu
  refine ⟨htrimmed, hcases.resolve_right fun hnone => hnone.2 p ?_ hkind⟩
  rw [hchildren]
  exact List.mem_singleton_self p

/-- A line that reads as one paragraph of text and at most eight nodes of emphasis, in which no delimiter stays text,
comes back from what is printed for it, with all settings of the printer. -/
theorem scan_printTree_emphasis (o : ScanOptions) (q : PrintOptions) (path : Option String) {s : String}
    (hline : '\n' ∉ s.toList) (htrim : trim s.toList = s.toList)
    (hplain : ∀ c ∈ ['\\', '\x60', '[', ']', '<'], c ∉ s.toList) (hstart : escapeLineStart s.toList = s.toList)
    {t p : Tree Position} (ht : (scan o path s).tree = some t) (hchildren : t.children = [p])
    (hkind : p.kind = .paragraph) (hcount : (t.preorder.countP fun x => isEmphasis x.kind) ≤ 8)
    (htexts : ∀ x ∈ t.preorder, ∀ value, x.content = .text value → '*' ∉ value.toList ∧ '_' ∉ value.toList) :
    ∃ printed u, printTree q t = .ok printed ∧ (scan o path (.ofList printed)).tree = some u ∧
      u.erase = t.erase := by
  have hcs : ∀ c ∈ s.toList, startsOther c = false := by
    intro c hc
    have hnot {d : Char} (hd : d ∈ ['\\', '\x60', '[', ']', '<', '\n']) : c ≠ d := by
      rintro rfl
      rcases List.mem_append.1 (show c ∈ ['\\', '\x60', '[', ']', '<'] ++ ['\n'] from hd) with hd | hd
      · exact hplain c hd hc
      · exact hline (List.mem_singleton.1 hd ▸ hc)
    simp [startsOther, hnot]
  obtain ⟨htrimmed, herase⟩ := erase_of_paragraph o path htrim hstart hcs ht hchildren hkind
  set ts := (readInline s.toList).trees.map Tree.erase
  have hpreorder : t.preorder.map Tree.erase =
      .node () .root [.node () .paragraph ts] :: .node () .paragraph ts :: Tree.preorderList ts := by
    have hmap := Tree.preorder_map (fun _ => ()) t
    rw [← Tree.erase, herase] at hmap
    rw [← List.append_nil (Tree.preorderList ts)]
    exact hmap.symm
  have hbelow : ∀ x ∈ Tree.preorderList ts, ∀ value, x.content = .text value →
      ∀ d : Delimiter, d.char ∉ value.toList := by
    intro x hx value hvalue
    have hmem : x ∈ t.preorder.map Tree.erase := hpreorder ▸ .tail _ (.tail _ hx)
    obtain ⟨y, hy, rfl⟩ := List.mem_map.1 hmem
    rw [Tree.erase, Tree.content_map] at hvalue
    rintro (_ | _)
    · exact (htexts y hy value hvalue).1
    · exact (htexts y hy value hvalue).2
  have hlimit : ((Tree.preorderList ts).countP fun x => isEmphasis x.kind) ≤ searchLimit := by
    have hsub : List.Sublist (Tree.preorderList ts) (t.preorder.map Tree.erase) := by
      rw [hpreorder]
      exact (List.sublist_cons_self _ _).trans (List.sublist_cons_self _ _)
    have hcountP : ((t.preorder.map Tree.erase).countP fun x => isEmphasis x.kind) =
        t.preorder.countP fun x => isEmphasis x.kind := by
      simp only [List.countP_map, Function.comp_def, Tree.erase, Tree.kind_map]
    exact hsub.countP_le.trans (hcountP.trans_le hcount)
  obtain ⟨text, hprint, hunmarked, hrule, hmarker, hread⟩ :=
    exists_printTree_line q htrimmed hstart hcs (show (readInline s.toList).trees.map Tree.erase = ts from rfl) hbelow
      hlimit
  obtain ⟨u, hu, hcases⟩ := exists_scan_unmarked o path hunmarked (.inr rfl)
  refine ⟨text ++ ['\n'], u, ?_, hu, ?_⟩
  · rw [← hprint]
    exact printTree_congr q (herase ▸ (Tree.erase_map _ t).symm)
  · rw [herase, ← hread]
    refine hcases.resolve_right fun hopens => ?_
    rcases hopens.1 with hopens | hopens
    · rw [hrule] at hopens
      cases hopens
    · exact hopens hmarker

/-- Strong text at the end of emphasised text, where the printer prefers underscores for the latter. -/
theorem scan_printTree_emphasis_nested :
    ∃ t u, (scan {} none "*a **b***").tree = some t ∧
      printTree { emphasis := .underscore } t = .ok "_a **b**_\n".toList ∧
      (scan {} none "_a **b**_\n").tree = some u ∧ u.erase = t.erase := by
  have ht := tree_scan {} none "*a **b***"
  generalize htree : (readDocument {} "*a **b***".toList).tree.map
    (Locator.ofText "*a **b***".toList).positionOf = t at ht
  obtain ⟨p, hchildren⟩ : ∃ p, t.children = [p] := List.length_eq_one_iff.1 (by rw [← htree]; decide +kernel)
  have hkind : p.kind = .paragraph := by
    have hall : ∀ p ∈ t.children, p.kind = .paragraph := by rw [← htree]; decide +kernel
    exact hall p (hchildren ▸ List.mem_singleton_self p)
  have hcount : (t.preorder.countP fun x => isEmphasis x.kind) ≤ 8 := by rw [← htree]; decide +kernel
  have htexts : ∀ x ∈ t.preorder, ∀ value, x.content = .text value → '*' ∉ value.toList ∧ '_' ∉ value.toList := by
    have hall : ∀ x ∈ t.preorder, ∀ value ∈ x.content.value?, '*' ∉ value.toList ∧ '_' ∉ value.toList := by
      rw [← htree]
      decide +kernel
    exact fun x hx value hvalue => hall x hx value (by rw [hvalue]; rfl)
  have hplain : ∀ c ∈ ['\\', '\x60', '[', ']', '<'], c ∉ "*a **b***".toList := by
    simp only [List.forall_mem_cons, List.not_mem_nil, false_implies, implies_true]
    decide
  obtain ⟨printed, u, hprinted, hu, huerase⟩ := scan_printTree_emphasis {} { emphasis := .underscore } none
    (by decide) (by decide +kernel) hplain (by decide +kernel) ht hchildren hkind hcount htexts
  have hoption : (printTree { emphasis := .underscore } t).toOption = some "_a **b**_\n".toList := by
    rw [← htree]
    decide +kernel
  rw [hprinted] at hoption
  obtain rfl := Option.some.inj hoption
  rw [String.ofList_toList] at hu
  exact ⟨t, u, ht, hprinted, hu, huerase⟩

end MarkdownTree
