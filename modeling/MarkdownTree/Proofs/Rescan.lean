import MarkdownTree.Proofs.Container
import MarkdownTree.Proofs.Event
import MarkdownTree.Proofs.Serialized
import MarkdownTree.Proofs.SpellingPrint
import MarkdownTree.Proofs.Taken

/-!
# The check of what is printed

Printed inline content is read again to see whether it still says the same. The check joins the lines on its own, with
offsets of its own, and reads neither blocks nor positions. What must survive of inline content depends on no place
(`keptList_phrase`), so the check answers what it would find in a root built of events (`isIntact_checkedRoot`). A scan does
the same with a paragraph that is all of a document: its lines are all lines of the text
(`Setting.exists_paragraph_of_segments`), and they join to the same content (`Setting.contentOf_paragraphLines`). So the
check takes a text for what a scan takes it for (`isIntact_scan`).
-/

namespace MarkdownTree

/-! ### Drafts without their places -/

namespace Draft

mutual

/-- Places make no difference to what nodes say. -/
private theorem same_kept (places : Bool) : ∀ s t : Draft, same (s.kept places) (t.kept places) = same s t
  | node _ _ _ cs _, node _ _ _ ds _ => by rw [kept, kept, same, same, sameList_keptList_keptList places cs ds]
  | node .., other _ => by rw [kept, kept, same, same] <;> simp
  | other _, node .. => by rw [kept, kept, same, same] <;> simp
  | other _, other _ => by rw [kept, kept]

private theorem sameList_keptList_keptList (places : Bool) :
    ∀ ss ts : List Draft, sameList (keptList places ss) (keptList places ts) = sameList ss ts
  | [], [] => by rw [keptList]
  | [], _ :: _ => by rw [keptList, keptList, sameList, sameList] <;> simp
  | _ :: _, [] => by rw [keptList, keptList, sameList, sameList] <;> simp
  | s :: ss, t :: ts => by
    rw [keptList, keptList, sameList, sameList, same_kept places s t, sameList_keptList_keptList places ss ts]

end

mutual

private theorem kept_ofTree : ∀ t : Tree (Option Position), (ofTree t).kept false = ofTree (t.map fun _ => none)
  | .node position content children => by
    rw [ofTree, kept, keptList_ofTrees children, Tree.map, ofTree]
    rfl

private theorem keptList_ofTrees : ∀ ts : List (Tree (Option Position)),
    keptList false (ofTrees ts) = ofTrees (Tree.mapList (fun _ => none) ts)
  | [] => by rw [ofTrees, keptList, Tree.mapList, ofTrees]
  | t :: ts => by rw [ofTrees, keptList, kept_ofTree t, keptList_ofTrees ts, Tree.mapList, ofTrees]

end

/-- Trees of the same structure are the same drafts but for their places. -/
private theorem keptList_ofTrees_of_erase {ss ts : List (Tree (Option Position))}
    (h : ss.map Tree.erase = ts.map Tree.erase) : keptList false (ofTrees ss) = keptList false (ofTrees ts) := by
  have hnone (us : List (Tree (Option Position))) :
      Tree.mapList (fun _ => none) us = (us.map Tree.erase).map (Tree.map fun _ => (none : Option Position)) := by
    rw [Tree.mapList_eq_map, List.map_map]
    exact List.map_congr_left fun t _ => (Tree.map_map (fun _ => ()) (fun _ => none) t).symm
  rw [keptList_ofTrees, keptList_ofTrees, hnone, hnone, h]

/-- Drafts that say the same but for their places are equal to the same. -/
private theorem sameList_congr {ss ts : List Draft} (h : keptList false ss = keptList false ts) (us : List Draft) :
    sameList ss us = sameList ts us := by
  rw [← sameList_keptList_keptList false ss, h, sameList_keptList_keptList]

private theorem sameList_self {ts : List Draft} (h : ∀ t ∈ ts, same t t = true) : sameList ts ts = true := by
  induction ts with
  | nil => rfl
  | cons t ts ih => rw [sameList, h t (.head _), ih fun s hs => h s (.tail _ hs), Bool.and_self]

private theorem sameList_values_fields (c : Content) :
    Value.sameList (values c.kind c.fields) (values c.kind c.fields) = true := by
  refine Value.sameList_self fun v hv => Value.Plain.same_self ?_
  rw [values, Print.stray?_fields, Option.toList_none, List.append_nil] at hv
  obtain ⟨field, -, rfl⟩ := List.mem_map.1 hv
  exact Tree.plain_fieldOf c field.1

mutual

/-- What a tree says is equal to itself. -/
private theorem same_ofTree : ∀ t : Tree (Option Position), same (ofTree t) (ofTree t) = true
  | .node _ content children => by
    rw [ofTree, same, sameList_ofTrees children, sameList_values_fields, BEq.rfl, Bool.and_self, Bool.and_self]

private theorem sameList_ofTrees : ∀ ts : List (Tree (Option Position)), sameList (ofTrees ts) (ofTrees ts) = true
  | [] => rfl
  | t :: ts => by rw [ofTrees, sameList, same_ofTree t, sameList_ofTrees ts, Bool.and_self]

end

end Draft

namespace Print

open Text Draft

/-! ### What must survive -/

/-- A row starts with a leaf if it does without its places. -/
private theorem exists_leaf_of_keptList {kind : Kind} {given : List Field} {place : Option Place} {id : Option Nat}
    {ts rest : List Draft} (h : keptList false ts = .node kind given place [] id :: rest) :
    ∃ place' rest', ts = .node kind given place' [] id :: rest' := by
  cases ts with
  | nil => cases h
  | cons t ts =>
    cases t with
    | other v => cases h
    | node kind' given' place' children id' =>
      rw [keptList, kept, List.cons.injEq, Draft.node.injEq] at h
      obtain ⟨⟨rfl, rfl, -, hchildren, rfl⟩, -⟩ := h
      cases children with
      | nil => exact ⟨place', ts, rfl⟩
      | cons t ts => cases hchildren

private theorem keptList_consText (value : List Char) (rest : List Draft) :
    keptList false (consText value rest) = consText value (keptList false rest) := by
  unfold consText
  split
  · rfl
  · split
    · rfl
    · rename_i hrest
      split
      · rename_i hkept
        obtain ⟨place, rest', rfl⟩ := exists_leaf_of_keptList hkept
        exact absurd rfl (hrest _ _ _ _ _)
      · rfl

mutual

/-- What must survive depends on no place. -/
private theorem keptList_phraseNode (atx : Bool) (rest : List Draft) : ∀ t : Draft,
    keptList false (phraseNode atx rest t) = phraseNode atx (keptList false rest) (t.kept false)
  | .node kind given place children id => by
    have hchildren := keptList_phrase atx children
    rw [kept]
    unfold phraseNode
    dsimp only
    split
    · exact keptList_consText _ rest
    · split
      · exact keptList_consText _ rest
      · rfl
    · rw [keptList, kept, hchildren]
      rfl
    · rw [keptList, kept, hchildren]
      rfl
    · rw [keptList, kept, hchildren]
      rfl
    · rfl
  | .other v => by
    rw [phraseNode, keptList, kept, phraseNode]

theorem keptList_phrase (atx : Bool) : ∀ ts : List Draft,
    keptList false (phrase atx ts) = phrase atx (keptList false ts)
  | [] => by rw [phrase, keptList, phrase]
  | t :: ts => by rw [phrase, keptList_phraseNode atx _ t, keptList_phrase atx ts, keptList, phrase]

end

private theorem same_consText (value : List Char) {rest : List Draft} (h : ∀ t ∈ rest, same t t = true) :
    ∀ t ∈ consText value rest, same t t = true := by
  have htext (value : List Char) :
      same (Draft.ofText (String.ofList value)) (Draft.ofText (String.ofList value)) = true :=
    same_ofTree (.node none (.text (String.ofList value)) [])
  unfold consText
  split
  · exact h
  · split
    · exact List.forall_mem_cons.2 ⟨htext _, (List.forall_mem_cons.1 h).2⟩
    · exact List.forall_mem_cons.2 ⟨htext _, h⟩

mutual

/-- What must survive of a tree is equal to itself. -/
private theorem same_phraseNode (atx : Bool) {rest : List Draft} (h : ∀ t ∈ rest, same t t = true) :
    ∀ t : Tree (Option Position), ∀ u ∈ phraseNode atx rest (ofTree t), same u u = true
  | .node position content children => by
    have hself := same_ofTree (.node position content children)
    have hchildren := sameList_self (same_phrase atx children)
    have hfields : content.fields.filter (·.1 != "children") = content.fields := by
      cases content <;> rfl
    have hinner : same (.node content.kind content.fields none (phrase atx (ofTrees children)) none)
        (.node content.kind content.fields none (phrase atx (ofTrees children)) none) = true := by
      rw [same, hchildren, sameList_values_fields, BEq.rfl, Bool.and_self, Bool.and_self]
    rw [ofTree] at hself ⊢
    unfold phraseNode
    dsimp only
    rw [hfields]
    split
    · exact same_consText _ h
    · split
      · exact same_consText _ h
      · exact List.forall_mem_cons.2 ⟨hself, h⟩
    · rename_i hkind
      exact List.forall_mem_cons.2 ⟨hkind ▸ hinner, h⟩
    · rename_i hkind
      exact List.forall_mem_cons.2 ⟨hkind ▸ hinner, h⟩
    · rename_i hkind
      exact List.forall_mem_cons.2 ⟨hkind ▸ hinner, h⟩
    · exact List.forall_mem_cons.2 ⟨hself, h⟩

private theorem same_phrase (atx : Bool) :
    ∀ ts : List (Tree (Option Position)), ∀ u ∈ phrase atx (ofTrees ts), same u u = true
  | [] => fun u hu => by cases hu
  | t :: ts => by
    rw [ofTrees, phrase]
    exact same_phraseNode atx (same_phrase atx ts) t

end

/-- Inline content of the same structure has the same to survive, wherever it stands. -/
theorem sameList_phrase (atx : Bool) {ss ts : List (Tree (Option Position))}
    (h : ss.map Tree.erase = ts.map Tree.erase) :
    sameList (phrase atx (ofTrees ss)) (phrase atx (ofTrees ts)) = true := by
  have hkept : keptList false (phrase atx (ofTrees ss)) = keptList false (phrase atx (ofTrees ts)) := by
    rw [keptList_phrase, keptList_phrase, keptList_ofTrees_of_erase h]
  rw [sameList_congr hkept]
  exact sameList_self (same_phrase atx ts)

end Print

/-! ### A paragraph that is all of a document -/

namespace Scan

open Text

theorem Setting.segments_eq_nil {s : Setting} {limit : Value} {gap : Bool} {ls : List Line}
    (h : s.segments limit gap ls = []) : ∀ l ∈ ls, l.isBlank = true := by
  induction ls generalizing gap with
  | nil => exact List.forall_mem_nil _
  | cons l ls ih =>
    rw [Setting.segments] at h
    split at h
    · rename_i hblank
      exact List.forall_mem_cons.2 ⟨hblank, ih h⟩
    · cases h

/-- A chunk of the kind of a paragraph is one of the lines it takes. -/
private theorem Setting.exists_paragraph_of_kind {s : Setting} {limit : Value} {l : Line} {ls : List Line}
    (h : (s.chunk limit l ls).1.kind = .paragraph) : ∃ span notes,
      (s.chunk limit l ls).1 = .paragraph span (paragraphLines (l :: ls.take (s.chunk limit l ls).2)) notes := by
  rcases s.chunk_cases limit l with hc | ⟨fence, -, hc⟩ | ⟨depth, -, hc⟩ | hc | hc | ⟨m, -, hc⟩ | hc <;> rw [hc] at h ⊢
  · cases h
  · rw [s.kind_fencedCode] at h
    cases h
  · cases h
  · cases h
  · cases h
  · cases h
  · have hmore : ls.take (ls.takeWhile s.goesOn).length = ls.takeWhile s.goesOn :=
      (List.prefix_iff_eq_take.1 (List.takeWhile_prefix _)).symm
    unfold Setting.paragraph at h ⊢
    dsimp only at h ⊢
    split at h
    · split at h
      · cases h
      · dsimp only
        rw [hmore]
        exact ⟨_, _, rfl⟩
    · dsimp only
      rw [hmore]
      exact ⟨_, _, rfl⟩

/-- Lines that are read as nothing but a paragraph, the first and last of which are not blank, are all lines of the
paragraph. -/
theorem Setting.exists_paragraph_of_segments {s : Setting} {limit : Value} {gap : Bool} {ls : List Line} {seg : Segment}
    (h : s.segments limit gap ls = [seg]) (hkind : seg.chunk.kind = .paragraph)
    (hfirst : ∀ l ∈ ls.head?, l.isBlank = false) (hlast : ∀ l ∈ ls.getLast?, l.isBlank = false) :
    ∃ span notes, seg.chunk = .paragraph span (paragraphLines ls) notes := by
  cases ls with
  | nil =>
    rw [Setting.segments] at h
    cases h
  | cons l ls =>
    rw [Setting.segments, if_neg (by rw [hfirst l rfl]; decide), List.cons.injEq] at h
    obtain ⟨rfl, hrest⟩ := h
    have hblank := Setting.segments_eq_nil hrest
    obtain ⟨span, notes, hchunk⟩ := Setting.exists_paragraph_of_kind hkind
    -- A line that the paragraph does not take would be blank, and so would be the last one.
    have hall : ls.take (s.chunk limit l ls).2 = ls := by
      rw [List.take_eq_self_iff]
      refine Nat.le_of_not_lt fun hlt => ?_
      have hne : ls.drop (s.chunk limit l ls).2 ≠ [] := by simpa using hlt
      have hmem := List.getLast_mem hne
      have hend : (l :: ls).getLast? = some ((ls.drop (s.chunk limit l ls).2).getLast hne) := by
        have hls : ls ≠ [] := List.ne_nil_of_length_pos (Nat.zero_lt_of_lt hlt)
        rw [← List.getLast?_eq_some_getLast, List.getLast?_drop, if_neg (Nat.not_le.2 hlt), List.getLast?_cons,
          List.getLast?_eq_some_getLast hls, Option.getD_some]
      have hnot := hlast _ hend
      rw [hblank _ hmem] at hnot
      cases hnot
    rw [hall] at hchunk
    exact ⟨span, notes, hchunk⟩

private theorem Setting.texts_paragraphLines (ls : List Line) :
    (paragraphLines ls).map Line.text =
      ((ls.map Line.text).map Text.trimStart).dropLast ++
        (((ls.map Line.text).map Text.trimStart).getLast?.map Text.trimEnd).toList := by
  induction ls with
  | nil => rfl
  | cons l ls ih =>
    cases ls with
    | nil => simp [paragraphLines, Line.trimEnd, Line.trimStart_text]
    | cons m ls =>
      rw [paragraphLines, List.map_cons, ih, Line.trimStart_text]
      · simp
      · simp

/-- A paragraph joins its lines as the check does. -/
theorem Setting.contentOf_paragraphLines {ls : List Line} {text : List Char} (h : ls.map Line.text = fields '\n' text) :
    contentOf (paragraphLines ls) = join ['\n'] (Print.contentLines false text) := by
  rw [contentOf, texts_paragraphLines, h]
  rfl

/-- A text between lines that are not blank, of which a scan makes a paragraph and nothing else, has its content in
that paragraph. -/
private theorem erase_children_paragraph {o : ScanOptions} (ho : o.frontMatter = false) (path : Option String)
    {text : String}
    (hreturn : '\r' ∉ text.toList) (hfirst : ∀ line ∈ (fields '\n' text.toList).head?, line.all isBlank = false)
    (hlast : ∀ line ∈ (fields '\n' text.toList).getLast?, line.all isBlank = false) {root p : Tree Position}
    (htree : (scan o path text).tree = some root) (hchildren : root.children = [p]) (hkind : p.kind = .paragraph) :
    p.children.map Tree.erase =
      (readInline (join ['\n'] (Print.contentLines false text.toList))).trees.map Tree.erase := by
  have hlines : (linesOf text.toList).map Line.text = fields '\n' text.toList := by
    have hjoined := text_linesOf_joined (fields_ne_nil '\n' text.toList)
      (fun part hpart => ⟨newline_notMem_fields _ part hpart, notMem_fields hreturn part hpart⟩)
      (fun hnil => by cases hlast [] hnil) (.inl rfl)
    rwa [join_fields, List.append_nil] at hjoined
  obtain ⟨u, hu, huerase⟩ := exists_scan o path text
    (show splitDocument o.frontMatter text.toList = ([], linesOf text.toList) by rw [ho]; rfl)
  obtain rfl : root = u := Option.some.inj (htree.symm.trans hu)
  obtain ⟨inner, s, hassemble⟩ := readBlocks_eq_assemble o o.maxNesting false
  have hblocks := Tree.map_erase_children huerase
  rw [hchildren, hassemble, trees_assemble, List.map_map] at hblocks
  obtain ⟨chunk, hchunks, hchunk⟩ := List.map_eq_singleton_iff.1 hblocks.symm
  obtain ⟨seg, hsegments, rfl⟩ := List.map_eq_singleton_iff.1 hchunks
  have hparagraph : seg.chunk.kind = .paragraph := by
    have hsame := congrArg Tree.kind hchunk
    rwa [Function.comp_apply, Tree.erase, Tree.erase, Tree.kind_map, Tree.kind_map, hkind, kind_chunkTree] at hsame
  obtain ⟨span, notes, heq⟩ := Setting.exists_paragraph_of_segments hsegments hparagraph
    (fun l hl => hfirst l.text (by rw [← hlines, List.head?_map]; exact Option.mem_map_of_mem _ hl))
    (fun l hl => hlast l.text (by rw [← hlines, List.getLast?_map]; exact Option.mem_map_of_mem _ hl))
  have hinner := congrArg Tree.children hchunk
  rw [heq, Function.comp_apply, Tree.erase, Tree.erase, Tree.children_map, Tree.children_map] at hinner
  rw [← Setting.contentOf_paragraphLines hlines, ← erase_trees_readLines]
  exact hinner.symm

end Scan

/-! ### The check -/

namespace Event

/-- Building from the events of inline content between those of a root gives a root that holds it. -/
private theorem build_root {source : List Char} (l : Locator) {span : Span} (hle : span.start ≤ span.stop)
    {ts : List (Tree Span)}
    (h : ∀ t ∈ ts, ∀ u ∈ t.preorder, Regular source u) :
    build l (ofTree (.node span .root ts)) =
      .ok (.node .root [] (some (.ofPosition (l.positionOf span))) (draftsOf l ts) none) := by
  refine build_of_make l h ?_ rfl
  simp only [Frame.make, frameOf]
  rw [make_eq_ok l hle]
  rfl

end Event

namespace Print

open Text Scan

private theorem texts_consecutive (offset : Nat) (texts : List (List Char)) :
    (consecutive offset texts).map Line.text = texts := by
  induction texts generalizing offset with
  | nil => rfl
  | cons text texts ih => rw [consecutive, List.map_cons, ih]

/-- Such lines give the content its own offsets. -/
private theorem sourceOf_consecutive {texts : List (List Char)} (hne : texts ≠ []) (offset index : Nat) :
    sourceOf (consecutive offset texts) index = offset + index := by
  induction texts generalizing offset index with
  | nil => exact absurd rfl hne
  | cons text texts ih =>
    cases texts with
    | nil => rfl
    | cons next texts =>
      have hrest := ih (List.cons_ne_nil next texts) (offset + text.length + 1) (index - text.length - 1)
      show (if index ≤ text.length then offset + index
        else sourceOf (consecutive (offset + text.length + 1) (next :: texts)) (index - text.length - 1)) = offset + index
      rw [hrest]
      split <;> omega

/-- What the check reads has the places of the content itself. -/
private theorem trees_readLines_consecutive {texts : List (List Char)} (hne : texts ≠ []) :
    (readLines (consecutive 0 texts)).trees = (readInline (join ['\n'] texts)).trees := by
  have hmove : (fun s : Span => (⟨sourceOf (consecutive 0 texts) s.start, sourceOf (consecutive 0 texts) s.stop⟩ : Span))
      = id := by
    funext s
    rw [sourceOf_consecutive hne, sourceOf_consecutive hne, Nat.zero_add, Nat.zero_add, id]
  rw [readLines, contentOf, texts_consecutive]
  dsimp only
  rw [hmove]
  exact (List.map_congr_left fun t _ => Tree.map_id t).trans (List.map_id _)

private theorem contentLines_ne_nil (atx : Bool) (printed : List Char) : contentLines atx printed ≠ [] := by
  unfold contentLines
  split
  · exact List.cons_ne_nil _ _
  · have hne : (fields '\n' printed).map trimStart ≠ [] := by simpa using fields_ne_nil '\n' printed
    simp [List.getLast?_eq_some_getLast hne]

/-- Every text builds a root, whose children say what the text reads as, but for their places.  So the check answers what
it would find in that root. -/
theorem isIntact_checkedRoot (atx : Bool) (printed : List Char) : ∃ root, checkedRoot atx printed = .ok root ∧
    Draft.keptList false (phrase atx root.children) = Draft.keptList false (rescan atx printed) ∧
      ∀ expected, isIntact atx expected printed = Draft.sameList (phrase atx root.children) expected := by
  have hread := phrase_readInline (join ['\n'] (contentLines atx printed))
  have htrees := trees_readLines_consecutive (contentLines_ne_nil atx printed)
  obtain ⟨root, hroot, ts, hts, herase⟩ : ∃ root, checkedRoot atx printed = .ok root ∧
      ∃ ts : List (Tree (Option Position)), root.children = Draft.ofTrees ts ∧
        ts.map Tree.erase = (readInline (join ['\n'] (contentLines atx printed))).trees.map Tree.erase := by
    rw [checkedRoot, htrees]
    refine ⟨_, Event.build_root _ (Nat.zero_le _) hread.regular, _, rfl, ?_⟩
    rw [Tree.mapList_eq_map, List.map_map]
    exact List.map_congr_left fun t _ => Tree.erase_map _ t
  have hsame : Draft.keptList false (phrase atx root.children) = Draft.keptList false (rescan atx printed) := by
    rw [rescan, hts, keptList_phrase, keptList_phrase]
    refine congrArg (phrase atx) (Draft.keptList_ofTrees_of_erase (herase.trans ?_))
    rw [List.map_map]
    exact List.map_congr_left fun t _ => (Tree.erase_map _ t).symm
  exact ⟨root, hroot, hsame, fun expected => Draft.sameList_congr hsame.symm expected⟩

/-- If a scan makes of a text one paragraph and nothing else, the check finds in the text what must survive of the
children of that paragraph, whether it is asked for the root that it builds or for its answer. -/
theorem isIntact_scan {o : ScanOptions} (ho : o.frontMatter = false) (path : Option String) {text : String}
    (hreturn : '\r' ∉ text.toList) (hfirst : ∀ line ∈ (fields '\n' text.toList).head?, line.all isBlank = false)
    (hlast : ∀ line ∈ (fields '\n' text.toList).getLast?, line.all isBlank = false) {root p : Tree Position}
    (htree : (scan o path text).tree = some root) (hchildren : root.children = [p]) (hkind : p.kind = .paragraph) :
    let expected := phrase false (Draft.ofTrees (p.children.map (·.map some)))
    isIntact false expected text.toList = true ∧
      ∃ checked, checkedRoot false text.toList = .ok checked ∧
        Draft.sameList (phrase false checked.children) expected = true := by
  intro expected
  have hcontent := erase_children_paragraph ho path hreturn hfirst hlast htree hchildren hkind
  have hpositions : (p.children.map (·.map some)).map Tree.erase = p.children.map Tree.erase := by
    rw [List.map_map]
    exact List.map_congr_left fun t _ => Tree.erase_map some t
  have hintact : isIntact false expected text.toList = true := by
    refine sameList_phrase false ?_
    rw [hpositions, hcontent, List.map_map]
    exact List.map_congr_left fun t _ => Tree.erase_map _ t
  obtain ⟨checked, hchecked, -, hanswer⟩ := isIntact_checkedRoot false text.toList
  exact ⟨hintact, checked, hchecked, (hanswer expected).symm.trans hintact⟩

/-- A paragraph of three lines, with code that crosses a line feed, a break and blanks at all places where some are
left out. -/
theorem isIntact_scan_lines : ∃ root p,
    (scan { frontMatter := false } none "  *a* `b\n\tc`  \n d\\\n![e](f)\t").tree = some root ∧ root.children = [p] ∧
      p.kind = .paragraph ∧
      isIntact false (phrase false (Draft.ofTrees (p.children.map (·.map some))))
        "  *a* `b\n\tc`  \n d\\\n![e](f)\t".toList = true := by
  obtain ⟨root, htree⟩ : ∃ root,
      (scan { frontMatter := false } none "  *a* `b\n\tc`  \n d\\\n![e](f)\t").tree = some root :=
    ⟨_, tree_scan _ _ _⟩
  have hkinds : ((scan { frontMatter := false } none "  *a* `b\n\tc`  \n d\\\n![e](f)\t").tree.map
      fun t => t.children.map Tree.kind) = some [.paragraph] := by decide +kernel
  rw [htree, Option.map_some, Option.some.injEq, List.map_eq_singleton_iff] at hkinds
  obtain ⟨p, hchildren, hkind⟩ := hkinds
  refine ⟨root, p, htree, hchildren, hkind, ?_⟩
  exact (isIntact_scan rfl none (by decide) (by decide) (by decide) htree hchildren hkind).1

end Print

end MarkdownTree
