import MarkdownTree.Proofs.Alike
import MarkdownTree.Proofs.Located

/-!
# Texts of the same lines

A text that is joined from parts without line feeds has these parts as its fields again (`fields_join`), so its lines
say what the parts do (`text_linesOf_join`).  A scan depends on what the lines say and on nothing else: texts with the
same lines are scanned to trees of the same structure, with the same warnings but for their places
(`scan_alike_of_lines`).  Carriage returns before line feeds and a line feed at the end of a text make no other lines.
-/

namespace MarkdownTree

namespace Text

/-! ### Fields -/

theorem fields_of_notMem {part : List Char} (h : '\n' ∉ part) : fields '\n' part = [part] := by
  induction part with
  | nil => rfl
  | cons c cs ih =>
    simp only [List.mem_cons, not_or] at h
    rw [fields, if_neg (Ne.symm h.1), ih h.2]

private theorem fields_append {part : List Char} (h : '\n' ∉ part) (rest : List Char) :
    fields '\n' (part ++ '\n' :: rest) = part :: fields '\n' rest := by
  induction part with
  | nil => rw [List.nil_append, fields, if_pos rfl]
  | cons c cs ih =>
    simp only [List.mem_cons, not_or] at h
    rw [List.cons_append, fields, if_neg (Ne.symm h.1), ih h.2]

theorem join_cons_cons (part next : List Char) (parts : List (List Char)) :
    join ['\n'] (part :: next :: parts) = part ++ '\n' :: join ['\n'] (next :: parts) := by
  simp [join]

theorem join_concat {parts : List (List Char)} (hne : parts ≠ []) (part : List Char) :
    join ['\n'] (parts ++ [part]) = join ['\n'] parts ++ '\n' :: part := by
  induction parts with
  | nil => exact absurd rfl hne
  | cons first parts ih =>
    cases parts with
    | nil => simp [join]
    | cons next parts =>
      have hrest := ih (by simp)
      simp only [List.cons_append] at hrest ⊢
      rw [join_cons_cons, hrest, join_cons_cons, List.append_assoc, List.cons_append]

theorem fields_join {parts : List (List Char)} (hne : parts ≠ []) (h : ∀ part ∈ parts, '\n' ∉ part) :
    fields '\n' (join ['\n'] parts) = parts := by
  induction parts with
  | nil => exact absurd rfl hne
  | cons part parts ih =>
    obtain ⟨hpart, hparts⟩ := List.forall_mem_cons.1 h
    cases parts with
    | nil => exact fields_of_notMem hpart
    | cons next parts => rw [join_cons_cons, fields_append hpart, ih (by simp) hparts]

theorem newline_notMem_fields (cs : List Char) : ∀ part ∈ fields '\n' cs, '\n' ∉ part := by
  induction cs with
  | nil => simp [fields]
  | cons c cs ih =>
    rw [fields]
    split
    · exact List.forall_mem_cons.2 ⟨by simp, ih⟩
    · rename_i hc
      split
      · simpa using Ne.symm hc
      · rename_i part parts heq
        rw [heq] at ih
        obtain ⟨hpart, hparts⟩ := List.forall_mem_cons.1 ih
        refine List.forall_mem_cons.2 ⟨?_, hparts⟩
        simp only [List.mem_cons, not_or]
        exact ⟨Ne.symm hc, hpart⟩

private theorem infix_join {parts : List (List Char)} {part : List Char} (h : part ∈ parts) :
    part <:+: join ['\n'] parts := by
  induction parts with
  | nil => cases h
  | cons first parts ih =>
    cases parts with
    | nil =>
      rw [List.mem_singleton.1 h]
      exact List.infix_rfl
    | cons next parts =>
      rw [join_cons_cons]
      rcases List.mem_cons.1 h with rfl | h
      · exact (List.prefix_append _ _).isInfix
      · exact ((ih h).trans (List.suffix_cons _ _).isInfix).trans (List.suffix_append _ _).isInfix

theorem mem_join {parts : List (List Char)} {part : List Char} (h : part ∈ parts) {c : Char} (hc : c ∈ part) :
    c ∈ join ['\n'] parts :=
  (infix_join h).subset hc

theorem infix_of_mem_fields {cs part : List Char} (h : part ∈ fields '\n' cs) : part <:+: cs := by
  have := infix_join h
  rwa [join_fields] at this

theorem notMem_fields {cs : List Char} {c : Char} (h : c ∉ cs) : ∀ part ∈ fields '\n' cs, c ∉ part :=
  fun _ hpart hc => h ((infix_of_mem_fields hpart).subset hc)

private theorem getLast?_fields_ne {cs : List Char} (hne : cs ≠ []) (hlast : cs.getLast? ≠ some '\n') :
    (fields '\n' cs).getLast? ≠ some [] := by
  intro hnil
  obtain ⟨init, hinit⟩ := List.getLast?_eq_some_iff.1 hnil
  have hjoin := join_fields '\n' cs
  rw [hinit] at hjoin
  by_cases hempty : init = []
  · rw [hempty] at hjoin
    exact hne hjoin.symm
  · rw [join_concat hempty] at hjoin
    rw [← hjoin, List.getLast?_concat] at hlast
    exact hlast rfl

/-- The text with a carriage return before every line feed. -/
def withReturns (cs : List Char) : List Char :=
  cs.flatMap fun c => if c = '\n' then ['\r', '\n'] else [c]

private theorem withReturns_of_notMem {part : List Char} (h : '\n' ∉ part) : withReturns part = part := by
  induction part with
  | nil => rfl
  | cons c cs ih =>
    simp only [List.mem_cons, not_or] at h
    rw [withReturns, List.flatMap_cons, if_neg (Ne.symm h.1)]
    exact congrArg (c :: ·) (ih h.2)

private theorem withReturns_join (parts : List (List Char)) (last : List Char)
    (h : ∀ part ∈ parts ++ [last], '\n' ∉ part) :
    withReturns (join ['\n'] (parts ++ [last])) = join ['\n'] (parts.map (· ++ ['\r']) ++ [last]) := by
  induction parts with
  | nil => exact withReturns_of_notMem (h last (by simp))
  | cons part parts ih =>
    obtain ⟨hpart, hparts⟩ := List.forall_mem_cons.1 h
    have hcons : ∀ (p : List Char) {ps : List (List Char)}, ps ≠ [] →
        join ['\n'] (p :: ps) = p ++ '\n' :: join ['\n'] ps := by
      intro p ps hps
      obtain ⟨q, qs, rfl⟩ := List.exists_cons_of_ne_nil hps
      exact join_cons_cons p q qs
    rw [List.map_cons, List.cons_append, List.cons_append, hcons part (by simp), hcons _ (by simp), ← ih hparts]
    have happend : ∀ a b, withReturns (a ++ b) = withReturns a ++ withReturns b := fun a b => List.flatMap_append
    rw [happend, withReturns_of_notMem hpart]
    simp [withReturns]

end Text

namespace Scan

open Text

/-! ### Texts of lines -/

theorem dropReturn_of_notMem {part : List Char} (h : '\r' ∉ part) : dropReturn part = part :=
  if_neg fun hlast => h (List.mem_of_getLast? hlast)

private theorem dropReturn_concat (part : List Char) : dropReturn (part ++ ['\r']) = part := by
  rw [dropReturn, if_pos List.getLast?_concat, List.dropLast_concat]

theorem text_numberLines (offset : Nat) (parts : List (List Char)) :
    (numberLines offset parts).map Line.text = parts.map dropReturn := by
  induction parts generalizing offset with
  | nil => rfl
  | cons part parts ih => rw [numberLines, List.map_cons, List.map_cons, ih]

private theorem text_linesOf_of_ne {cs : List Char} (h : (fields '\n' cs).getLast? ≠ some []) :
    (linesOf cs).map Line.text = (fields '\n' cs).map dropReturn := by
  rw [linesOf, text_numberLines, if_neg h]

theorem text_linesOf_concat (cs : List Char) :
    (linesOf (cs ++ ['\n'])).map Line.text = (fields '\n' cs).map dropReturn := by
  have hfields : fields '\n' (cs ++ ['\n']) = fields '\n' cs ++ [[]] := by
    conv => lhs; rw [← join_fields '\n' cs, ← join_concat (fields_ne_nil '\n' cs)]
    exact fields_join (by simp) (List.forall_mem_append.2 ⟨newline_notMem_fields cs, by simp⟩)
  rw [linesOf, text_numberLines, hfields, if_pos List.getLast?_concat, List.dropLast_concat]

theorem text_linesOf_join {parts : List (List Char)} (hne : parts ≠ []) (hnewline : ∀ part ∈ parts, '\n' ∉ part)
    (hreturn : ∀ part ∈ parts, dropReturn part = part) {ending : List Char}
    (hending : ending = ['\n'] ∨ ending = [] ∧ parts.getLast? ≠ some []) :
    (linesOf (join ['\n'] parts ++ ending)).map Line.text = parts := by
  have hfields := fields_join hne hnewline
  have hparts : parts.map dropReturn = parts := List.map_congr_left hreturn |>.trans (List.map_id parts)
  rcases hending with rfl | ⟨rfl, hlast⟩
  · rw [text_linesOf_concat, hfields, hparts]
  · rw [List.append_nil, text_linesOf_of_ne (by rw [hfields]; exact hlast), hfields, hparts]

/-- Carriage returns before line feeds belong to no line. -/
private theorem text_linesOf_withReturns {cs : List Char} (h : '\r' ∉ cs) :
    (linesOf (withReturns cs)).map Line.text = (linesOf cs).map Line.text := by
  obtain ⟨last, hlast⟩ : ∃ last, (fields '\n' cs).getLast? = some last :=
    ⟨_, List.getLast?_eq_some_getLast (fields_ne_nil '\n' cs)⟩
  obtain ⟨parts, hparts⟩ := List.getLast?_eq_some_iff.1 hlast
  have hnewline := newline_notMem_fields cs
  have hreturn := notMem_fields h
  have hreturns : fields '\n' (withReturns cs) = parts.map (· ++ ['\r']) ++ [last] := by
    conv => lhs; rw [← join_fields '\n' cs, hparts, withReturns_join parts last (hparts ▸ hnewline)]
    rw [hparts] at hnewline
    refine fields_join (by simp) ?_
    simpa [or_imp, forall_and] using hnewline
  rw [hparts] at hreturn
  have hkept : (parts.map (· ++ ['\r'])).map dropReturn = parts.map dropReturn := by
    rw [List.map_map]
    refine List.map_congr_left fun part hpart => ?_
    rw [Function.comp_apply, dropReturn_concat, dropReturn_of_notMem (hreturn part (by simp [hpart]))]
  rw [linesOf, linesOf, text_numberLines, text_numberLines, hreturns, hparts]
  simp only [List.getLast?_concat, List.dropLast_concat]
  split
  · exact hkept
  · rw [List.map_append, List.map_append, hkept]

/-! ### Documents -/

variable {ls ms : List Line}

private theorem alike_splitFrontMatter? (h : List.Forall₂ Line.Alike ls ms) :
    (splitFrontMatter? ls = none ∧ splitFrontMatter? ms = none) ∨
      ∃ inner closing rest inner' closing' rest', splitFrontMatter? ls = some (inner, closing, rest) ∧
        splitFrontMatter? ms = some (inner', closing', rest') ∧ List.Forall₂ Line.Alike inner inner' ∧
        List.Forall₂ Line.Alike rest rest' := by
  induction h with
  | nil => exact .inl ⟨rfl, rfl⟩
  | @cons l m ls ms hlm hrest ih =>
    simp only [splitFrontMatter?, show l.text = m.text from hlm]
    split
    · exact .inr ⟨_, _, _, _, _, _, rfl, rfl, .nil, hrest⟩
    · rcases ih with ⟨hls, hms⟩ | ⟨inner, closing, rest, inner', closing', rest', hls, hms, hinner, hrest⟩ <;>
        rw [hls, hms]
      · exact .inl ⟨rfl, rfl⟩
      · exact .inr ⟨_, _, _, _, _, _, rfl, rfl, hinner.cons hlm, hrest⟩

private theorem alike_frontMatter? (h : List.Forall₂ Line.Alike ls ms) :
    (frontMatter? ls = none ∧ frontMatter? ms = none) ∨
      ∃ t rest u rest', frontMatter? ls = some (t, rest) ∧ frontMatter? ms = some (u, rest') ∧ t.erase = u.erase ∧
        List.Forall₂ Line.Alike rest rest' := by
  cases h with
  | nil => exact .inl ⟨rfl, rfl⟩
  | @cons l m ls ms hlm hrest =>
    simp only [frontMatter?, show l.text = m.text from hlm]
    split
    · rcases alike_splitFrontMatter? hrest with
        ⟨hls, hms⟩ | ⟨inner, closing, rest, inner', closing', rest', hls, hms, hinner, hrest⟩ <;> rw [hls, hms]
      · exact .inl ⟨rfl, rfl⟩
      · refine .inr ⟨_, _, _, _, rfl, rfl, ?_, hrest⟩
        rw [Line.forall₂_alike_iff.1 hinner, Tree.erase_node, Tree.erase_node]
    · exact .inl ⟨rfl, rfl⟩

/-- Texts whose lines say the same are read as documents of the same structure, with the same notes but for their
places. -/
private theorem alike_readDocument (o : ScanOptions) {s t : List Char}
    (h : (linesOf s).map Line.text = (linesOf t).map Line.text) :
    (readDocument o s).tree.erase = (readDocument o t).tree.erase ∧
      (readDocument o s).notes.map Note.anomaly = (readDocument o t).notes.map Note.anomaly := by
  have hlines := Line.forall₂_alike_iff.2 h
  have hblocks := alike_readBlocks (f := id) (o := o) rfl rfl o.maxNesting
  have hfront : ((if o.frontMatter then frontMatter? (linesOf s) else none) = none ∧
      (if o.frontMatter then frontMatter? (linesOf t) else none) = none) ∨
      ∃ t' rest u rest', (if o.frontMatter then frontMatter? (linesOf s) else none) = some (t', rest) ∧
        (if o.frontMatter then frontMatter? (linesOf t) else none) = some (u, rest') ∧ t'.erase = u.erase ∧
        List.Forall₂ Line.Alike rest rest' := by
    split
    · exact alike_frontMatter? hlines
    · exact .inl ⟨rfl, rfl⟩
  unfold readDocument
  dsimp only
  rcases hfront with ⟨hs, ht⟩ | ⟨node, rest, other, rest', hs, ht, hnode, hrest⟩ <;> rw [hs, ht]
  · have hread := hblocks false _ _ hlines
    exact ⟨by simp only [Tree.erase_node, List.nil_append, hread.trees], hread.notes⟩
  · have hread := hblocks false _ _ hrest
    refine ⟨?_, hread.notes⟩
    simp only [Tree.erase_node, List.map_append, List.map_cons, List.map_nil, hnode, hread.trees]

/-- Two scans that differ in places only: both give trees, and these have the same structure, and the warnings say the
same and name the same rules. -/
structure Scanned.Alike (x y : Scanned) : Prop where
  trees : ∃ s t, x.tree = some s ∧ y.tree = some t ∧ s.erase = t.erase
  warnings : (x.warnings.map fun d => (d.text, d.rule)) = y.warnings.map fun d => (d.text, d.rule)

private theorem scan_alike (o : ScanOptions) (p q : Option String) {s t : String}
    (h : (linesOf s.toList).map Line.text = (linesOf t.toList).map Line.text) : (scan o p s).Alike (scan o q t) := by
  obtain ⟨htree, hnotes⟩ := alike_readDocument o h
  refine ⟨⟨_, _, tree_scan o p s, tree_scan o q t, ?_⟩, ?_⟩
  · rw [Tree.erase_map, Tree.erase_map, htree]
  · have hsaid := congrArg (List.map fun a => (a.message, some a.rule)) hnotes
    simpa only [scan, List.map_map, Function.comp_def, Note.diagnostic] using hsaid

/-- A scan depends on what the lines of the text say, and on nothing else.  So carriage returns before all line feeds
make no difference but in places, and a line feed at the end makes none either. -/
theorem scan_alike_of_lines (o : ScanOptions) (p q : Option String) :
    (∀ s t : String, (linesOf s.toList).map Line.text = (linesOf t.toList).map Line.text →
      (scan o p s).Alike (scan o q t)) ∧
    (∀ t : String, '\r' ∉ t.toList → (scan o p t).Alike (scan o q (.ofList (withReturns t.toList)))) ∧
    (∀ t : String, t ≠ "" → t.toList.getLast? ≠ some '\n' → (scan o p t).Alike (scan o q (t ++ "\n"))) := by
  refine ⟨fun s t => scan_alike o p q, fun t h => scan_alike o p q ?_, fun t hne hlast => scan_alike o p q ?_⟩
  · rw [String.toList_ofList, text_linesOf_withReturns h]
  · have hlist : t.toList ≠ [] := fun hnil => hne (String.toList_eq_nil_iff.1 hnil)
    rw [String.toList_append, text_linesOf_of_ne (getLast?_fields_ne hlist hlast)]
    exact (text_linesOf_concat t.toList).symm

/-- Two lines, of which the second has no quote mark, written with carriage returns and with a line feed at the end. -/
theorem scan_alike_quote :
    ((linesOf "> a\nb".toList).map Line.text = (linesOf "> a\r\nb\n".toList).map Line.text ∧
      (scan {} none "> a\nb").Alike (scan {} none "> a\r\nb\n")) ∧
    ('\r' ∉ "> a\nb".toList ∧ (scan {} none "> a\nb").Alike (scan {} none (.ofList (withReturns "> a\nb".toList)))) ∧
    ("> a\nb" ≠ "" ∧ "> a\nb".toList.getLast? ≠ some '\n' ∧
      (scan {} none "> a\nb").Alike (scan {} none ("> a\nb" ++ "\n"))) :=
  have hlines : (linesOf "> a\nb".toList).map Line.text = (linesOf "> a\r\nb\n".toList).map Line.text := by
    decide +kernel
  ⟨⟨hlines, (scan_alike_of_lines {} none none).1 _ _ hlines⟩,
    ⟨by decide, (scan_alike_of_lines {} none none).2.1 _ (by decide)⟩,
    by decide, by decide, (scan_alike_of_lines {} none none).2.2 _ (by decide) (by decide)⟩

end Scan

end MarkdownTree
