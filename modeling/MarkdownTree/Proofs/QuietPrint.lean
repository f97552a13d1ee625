import MarkdownTree.Proofs.CodeSpan
import MarkdownTree.Proofs.LineStart
import MarkdownTree.Proofs.TidyScan

/-!
# Lines of printed inline content

What starts a line of printed inline content is harmless text, emphasis, a code span, a link or an image, and none of
these opens a block (`Writes.quietLines`).  Content starts with something that is not blank behind its emphasis marks
(`Writes.isFirm`), which keeps these from being list markers and rules.  Only links and images put line feeds into
marked headings (`Writes.newline_iff`): those in their titles, destinations and texts are printed as they are.
-/

namespace MarkdownTree

open Text Scan

/-- The titles, destinations and texts that are printed as they are have a line feed in them. -/
def Content.HoldsNewline : Content → Prop
  | .link destination title => '\n' ∈ destination.toList ∨ ∃ t ∈ title, '\n' ∈ t.toList
  | .image destination alt title => '\n' ∈ alt.toList ∨ '\n' ∈ destination.toList ∨ ∃ t ∈ title, '\n' ∈ t.toList
  | _ => False

instance : DecidablePred Content.HoldsNewline := fun c => by
  unfold Content.HoldsNewline
  cases c <;> infer_instance

namespace Tree

variable {α : Type}

/-- A node of inline content, or one that holds some, as it is read. -/
structure Neat (t : Tree α) : Prop where
  tidy : t.content.Tidy (t.children.map content)
  apart : t.children.IsChain fun c d => c.kind ≠ .text ∨ d.kind ≠ .text
  leaf : t.kind.isParent = false → t.children = []
  text : ∀ value, t.content = .text value → value ≠ ""
  inlineCode : ∀ value, t.content = .inlineCode value → value ≠ ""
  nonempty : t.kind = .paragraph ∨ t.kind = .emphasis ∨ t.kind = .strong → t.children ≠ []

/-- Siblings that follow each other as they are read, at the start of a line or not. -/
structure NeatRow (fresh : Bool) (ts : List (Tree α)) : Prop where
  first : fresh = true → ∀ c ∈ (ts.map content).head?, c.OpensVisibly
  next : (ts.map content).IsChain Content.Follows
  apart : ts.IsChain fun c d => c.kind ≠ .text ∨ d.kind ≠ .text

private theorem NeatRow.tail {fresh fresh' : Bool} {t : Tree α} {ts : List (Tree α)} (h : NeatRow fresh (t :: ts))
    (hends : fresh' = true → t.content.EndsLine) : NeatRow fresh' ts := by
  have hnext := h.next
  rw [List.map_cons, List.isChain_cons] at hnext
  exact ⟨fun hfresh c hc => (hnext.1 c hc).1 (hends hfresh), hnext.2, (List.isChain_cons.1 h.apart).2⟩

/-- The content of a paragraph, a heading or emphasis is neat, even at the start of a line, and ends no line. -/
theorem Neat.row {t : Tree α} (h : t.Neat)
    (hkind : t.kind = .paragraph ∨ t.kind = .heading ∨ t.kind = .emphasis ∨ t.kind = .strong) (fresh : Bool) :
    NeatRow fresh t.children ∧ ∀ c ∈ t.children.getLast?, ¬c.content.EndsLine := by
  obtain ⟨note, content, children⟩ := t
  have htidy : (children.map Tree.content).IsChain Content.Follows ∧
      (∀ c ∈ (children.map Tree.content).head?, c.OpensVisibly) ∧
        ∀ c ∈ (children.map Tree.content).getLast?, ¬c.EndsLine := by
    cases content with
    | paragraph | emphasis | strong =>
      obtain ⟨hnext, hfirst, hlast⟩ := h.tidy
      exact ⟨hnext, hfirst, fun c hc => (hlast c hc).not_endsLine⟩
    | heading => exact h.tidy
    | _ => rcases hkind with hkind | hkind | hkind | hkind <;> cases hkind
  refine ⟨⟨fun _ => htidy.2.1, htidy.1, h.apart⟩, fun c hc => htidy.2.2 c.content ?_⟩
  rw [List.getLast?_map]
  exact Option.mem_map_of_mem _ hc

theorem Neat.map {β : Type} {t : Tree α} (h : t.Neat) (f : α → β) : (t.map f).Neat := by
  obtain ⟨htidy, hapart, hleaf, htext, hcode, hne⟩ := h
  simp only [← kind_map f t, ← content_map f t] at htidy hleaf htext hcode hne
  refine ⟨?_, ?_, fun hk => ?_, htext, hcode, fun hk => ?_⟩
  · simpa only [children_map, List.map_map, Function.comp_def, content_map] using htidy
  · rw [children_map, List.isChain_map]
    simpa only [kind_map] using hapart
  · rw [children_map, hleaf hk, List.map_nil]
  · rw [children_map, ne_eq, List.map_eq_nil_iff]
    exact hne hk

end Tree

/-- All nodes of scanned trees are grammatical, and neat. -/
theorem scan_neat (o : ScanOptions) (path : Option String) (text : String) :
    ∃ tree, (Scan.scan o path text).tree = some tree ∧ tree.kind = .root ∧ (∀ t ∈ tree.preorder, Grammatical o t) ∧
      ∀ t ∈ tree.preorder, t.Neat := by
  obtain ⟨tree, htree, hroot, hgrammatical⟩ := scan_grammatical o path text
  obtain ⟨tree', htree', htidy⟩ := scan_tidy o path text
  cases htree.symm.trans htree'
  refine ⟨tree, htree, hroot, hgrammatical, fun t ht => ?_⟩
  have h := hgrammatical t ht
  refine ⟨htidy t ht, h.texts_apart, h.leaf, h.text, fun value hvalue => (h.inlineCode value hvalue).1, fun hk => ?_⟩
  refine h.nonempty ?_
  rcases hk with hk | hk | hk <;> simp [hk]

namespace Print

variable {α : Type}

/-! ### Line feeds -/

private theorem mem_escapeWhere {p : Char → Bool} {c : Char} (hc : c ≠ '\\') (cs : List Char) :
    c ∈ escapeWhere p cs ↔ c ∈ cs := by
  induction cs with
  | nil => rfl
  | cons d cs ih =>
    by_cases hd : p d = true
    · simp [escapeWhere_cons_of_pos cs hd, ih, hc]
    · simp [escapeWhere_cons_of_neg cs hd, ih]

private theorem newline_mem_linkTail {destination : String} {title : Option String} {tail : List Char}
    (h : linkTail (.text destination) (.ofText? title) = .ok tail) :
    '\n' ∈ tail ↔ '\n' ∈ destination.toList ∨ ∃ t ∈ title, '\n' ∈ t.toList := by
  have hdestination : '\n' ∈ destinationText destination.toList ↔ '\n' ∈ destination.toList := by
    unfold destinationText
    split
    · simp [mem_escapeWhere]
    · exact mem_escapeWhere (by decide) _
  cases title with
  | none =>
    obtain rfl := Except.ok.inj h
    simp [tailText, titleText, hdestination]
  | some title =>
    obtain rfl := Except.ok.inj h
    simp [tailText, titleText, hdestination, mem_escapeWhere]

private theorem newline_mem_join {parts : List (List Char)} (h : ∀ part ∈ parts, '\n' ∉ part) :
    '\n' ∈ join ['\n'] parts ↔ 2 ≤ parts.length := by
  match parts with
  | [] => simp [join]
  | [part] => simpa [join] using h part (.head _)
  | part :: next :: parts => simp [join_cons_cons]

private theorem newline_mem_escape (fresh atx : Bool) (cs : List Char) : '\n' ∈ escape fresh atx cs ↔ '\n' ∈ cs := by
  have hlines : ∀ (fresh : Bool) (lines : List (List Char)), (∀ line ∈ lines, '\n' ∉ line) →
      (∀ line ∈ escapeLines atx fresh lines, '\n' ∉ line) ∧ (escapeLines atx fresh lines).length = lines.length := by
    intro fresh lines
    induction lines generalizing fresh with
    | nil => exact fun _ => ⟨by simp [escapeLines], rfl⟩
    | cons line lines ih =>
      intro hnewline
      obtain ⟨hline, hnext⟩ := List.forall_mem_cons.1 hnewline
      obtain ⟨hrest, hlength⟩ := ih true hnext
      rw [escapeLines]
      exact ⟨List.forall_mem_cons.2 ⟨(written_line fresh atx hline).newline_notMem hline, hrest⟩,
        congrArg (· + 1) hlength⟩
  have hfields := newline_notMem_fields cs
  obtain ⟨hescaped, hlength⟩ := hlines fresh (fields '\n' cs) hfields
  rw [escape, newline_mem_join hescaped, hlength, ← newline_mem_join hfields, join_fields]

private theorem newline_mem_imageText {alt destination : String} {title : Option String} {x : List Char}
    (h : imageText (.text alt) (.text destination) (.ofText? title) = .ok x) :
    '\n' ∈ x ↔ (Content.image destination alt title).HoldsNewline := by
  obtain ⟨tail, htail⟩ := linkTail_fields destination title
  rw [imageText, htail] at h
  obtain rfl := Except.ok.inj h
  simp [newline_mem_escape, newline_mem_linkTail htail, Content.HoldsNewline]

private theorem newline_notMem_flatten (cs : List Char) : '\n' ∉ flatten cs := by
  intro hmem
  obtain ⟨c, -, hc⟩ := List.mem_map.1 hmem
  split at hc
  · cases hc
  · rename_i hne
    exact hne hc

private theorem newline_notMem_codeSpanText (value : List Char) : '\n' ∉ codeSpanText value := by
  have hflat := newline_notMem_flatten value
  unfold codeSpanText
  dsimp only
  split <;> simp [hflat]

private theorem newline_notMem_textText {fresh beforeLink : Bool} {value : String} {x : List Char}
    (h : textText fresh true beforeLink (.text value) = .ok x) : '\n' ∉ x := by
  have hescape : '\n' ∉ escape fresh true (flatten value.toList) := by
    rw [newline_mem_escape]
    exact newline_notMem_flatten _
  have hx : (if beforeLink && (escape fresh true (flatten value.toList)).getLast? == some '!' then
      (escape fresh true (flatten value.toList)).dropLast ++ ['\\', '!'] else
        escape fresh true (flatten value.toList)) = x := Except.ok.inj h
  rw [← hx]
  split
  · simp only [List.mem_append, not_or]
    exact ⟨fun hmem => hescape (List.dropLast_subset _ hmem), by decide⟩
  · exact hescape

private theorem char_of_mem_marks {d : Delimiter} {width : Nat} {c : Char} (h : c ∈ List.replicate width d.char) :
    c = '*' ∨ c = '_' := by
  rw [List.eq_of_mem_replicate h]
  cases d
  · exact .inl rfl
  · exact .inr rfl

private theorem newline_notMem_marks (d : Delimiter) (width : Nat) : '\n' ∉ List.replicate width d.char := by
  intro hmem
  rcases char_of_mem_marks hmem with h | h <;> cases h

/-- The line feeds in a marked heading are those of links and images. -/
theorem Writes.newline_iff {fresh : Bool} {ts : List (Tree α)} {x : List Char} (h : Writes true fresh ts x)
    (hneat : ∀ u ∈ Tree.preorderList ts, u.Neat) : '\n' ∈ x ↔ ∃ u ∈ Tree.preorderList ts, u.content.HoldsNewline := by
  induction h with
  | nil => simp [Tree.preorderList]
  | @text fresh note value children ts x y htext _ ih =>
    obtain ⟨ht, -, hts⟩ := Tree.forall_mem_preorderList_cons.1 hneat
    obtain rfl : children = [] := ht.leaf rfl
    rw [Tree.exists_mem_preorderList_cons, ← ih hts]
    simp [Tree.content, Content.HoldsNewline, Tree.preorderList, newline_notMem_textText htext]
  | @emphasis fresh note content width children ts x y d hwidth _ _ ihinner ih =>
    obtain ⟨-, hinner, hts⟩ := Tree.forall_mem_preorderList_cons.1 hneat
    have hnone : ¬(Tree.node note content children).content.HoldsNewline := by
      rcases Content.width_cases hwidth with ⟨rfl, -⟩ | ⟨rfl, -⟩
      · exact id
      · exact id
    rw [Tree.exists_mem_preorderList_cons, ← ihinner hinner, ← ih hts]
    simp only [List.mem_append, newline_notMem_marks, hnone, false_or]
  | link _ htail _ ihinner ih =>
    obtain ⟨-, hinner, hts⟩ := Tree.forall_mem_preorderList_cons.1 hneat
    rw [Tree.exists_mem_preorderList_cons, ← ihinner hinner, ← ih hts]
    simp only [List.mem_cons, List.mem_append, newline_mem_linkTail htail, Tree.content, Content.HoldsNewline]
    simp only [Char.reduceEq, false_or]
    exact or_left_comm
  | @inlineCode fresh note value children ts y _ ih =>
    obtain ⟨ht, -, hts⟩ := Tree.forall_mem_preorderList_cons.1 hneat
    obtain rfl : children = [] := ht.leaf rfl
    rw [Tree.exists_mem_preorderList_cons, ← ih hts]
    simp [Tree.content, Content.HoldsNewline, Tree.preorderList, newline_notMem_codeSpanText]
  | @image fresh note destination alt title children ts x y himage _ ih =>
    obtain ⟨ht, -, hts⟩ := Tree.forall_mem_preorderList_cons.1 hneat
    obtain rfl : children = [] := ht.leaf rfl
    rw [Tree.exists_mem_preorderList_cons, ← ih hts, List.mem_append, newline_mem_imageText himage]
    simp [Tree.content, Tree.preorderList]
  | @lineBreak fresh note children ts y _ ih =>
    obtain ⟨ht, -, hts⟩ := Tree.forall_mem_preorderList_cons.1 hneat
    obtain rfl : children = [] := ht.leaf rfl
    rw [Tree.exists_mem_preorderList_cons, ← ih hts]
    simp [Tree.content, Content.HoldsNewline, Tree.preorderList]

/-! ### The first character -/

/-- Behind the emphasis marks that the text may start with stands something that is neither one nor blank, and nothing
that could open a block if the text starts a line with it. -/
def IsFirm (fresh : Bool) (x : List Char) : Prop :=
  ∃ marks c rest, x = marks ++ c :: rest ∧ (∀ d ∈ marks, d = '*' ∨ d = '_') ∧ isBlank c = false ∧ c ≠ '*' ∧ c ≠ '_' ∧
    (fresh = true → marks = [] → isLineMark c = false)

private theorem isFirm_cons {fresh : Bool} {c : Char} (rest : List Char) (hblank : isBlank c = false)
    (hmark : c ≠ '*' ∧ c ≠ '_' ∧ isLineMark c = false) : IsFirm fresh (c :: rest) :=
  ⟨[], c, rest, rfl, by simp, hblank, hmark.1, hmark.2.1, fun _ _ => hmark.2.2⟩

theorem exists_cons_of_imageText {alt destination : String} {title : Option String} {x : List Char}
    (h : imageText (.text alt) (.text destination) (.ofText? title) = .ok x) : ∃ rest, x = '!' :: rest := by
  obtain ⟨tail, htail⟩ := linkTail_fields destination title
  rw [imageText, htail] at h
  cases h
  exact ⟨_, rfl⟩

/-- Inline content that does not start with a blank is firm when it is printed. -/
theorem Writes.isFirm {fresh : Bool} {ts : List (Tree α)} {x : List Char} (h : Writes false fresh ts x) (hne : ts ≠ [])
    (hneat : ∀ u ∈ Tree.preorderList ts, u.Neat) (hfirst : ∀ c ∈ (ts.map Tree.content).head?, c.OpensVisibly) :
    IsFirm fresh x := by
  induction h with
  | nil => exact absurd rfl hne
  | @text fresh note value children ts x y htext _ _ =>
    obtain ⟨ht, -⟩ := Tree.forall_mem_preorderList_cons.1 hneat
    obtain ⟨c, hc, hblank, hmark, hline⟩ := head?_textText htext (ht.text value rfl) (hfirst _ rfl)
    obtain ⟨rest, rfl⟩ := List.head?_eq_some_iff.1 hc
    simp only [List.mem_cons, List.not_mem_nil, or_false, not_or] at hmark
    exact ⟨[], c, rest ++ y, rfl, by simp, hblank, hmark.1, hmark.2.1, fun hfresh _ => hline hfresh⟩
  | @emphasis fresh note content width children ts x y d hwidth _ _ ihinner _ =>
    obtain ⟨ht, hinner, -⟩ := Tree.forall_mem_preorderList_cons.1 hneat
    have hkind := Content.kind_of_width hwidth
    have hrow := (ht.row (.inr (.inr hkind)) true).1.first rfl
    obtain ⟨marks, c, rest, hx, hmarks, hblank, hstar, hunder, -⟩ :=
      ihinner (ht.nonempty (.inr hkind)) hinner hrow
    refine ⟨List.replicate width d.char ++ marks, c, rest ++ (List.replicate width d.char ++ y), ?_, ?_, hblank, hstar,
      hunder, fun _ hnil => ?_⟩
    · simp [hx]
    · exact List.forall_mem_append.2 ⟨fun e he => char_of_mem_marks he, hmarks⟩
    · have hwidth := Content.width_pos hwidth
      simp at hnil
      omega
  | link => exact isFirm_cons _ (by decide) (by decide)
  | inlineCode =>
    rw [codeSpanText_eq_cons]
    exact isFirm_cons _ (by decide) (by decide)
  | image himage =>
    obtain ⟨rest, rfl⟩ := exists_cons_of_imageText himage
    exact isFirm_cons _ (by decide) (by decide)
  | lineBreak => exact isFirm_cons _ (by decide) (by decide)

/-! ### Lines -/

private theorem endsLine_of_startsAfter {fresh beforeLink : Bool} {value : String} {x : List Char}
    (h : textText fresh false beforeLink (.text value) = .ok x) (hne : value ≠ "")
    (hstart : startsAfter fresh x = true) :
    (Content.text value).EndsLine := by
  obtain ⟨c, hc⟩ := Option.ne_none_iff_exists'.1 (mt List.getLast?_eq_none_iff.1 (mt String.toList_eq_nil_iff.1 hne))
  rw [startsAfter, getLast?_textText h, hc] at hstart
  have hnewline : c = '\n' := by simpa using hstart
  rw [Content.EndsLine, hc, hnewline]

private theorem endsLine_cons {t : Tree α} {ts : List (Tree α)} {starts : Bool}
    (ht : starts = true → t.content.EndsLine)
    (h : ts = [] ∧ starts = true ∨ ∃ u ∈ ts.getLast?, u.content.EndsLine) :
    ∃ u ∈ (t :: ts).getLast?, u.content.EndsLine := by
  rcases h with ⟨rfl, hstart⟩ | ⟨u, hu, hends⟩
  · exact ⟨t, rfl, ht hstart⟩
  · refine ⟨u, ?_, hends⟩
    rw [List.getLast?_cons, Option.mem_def.1 hu]
    rfl

/-- A line starts after printed content only if its last node ends one, or if one starts before it and it is empty. -/
theorem Writes.endsLine {fresh : Bool} {ts : List (Tree α)} {x : List Char} (h : Writes false fresh ts x)
    (hneat : ∀ u ∈ Tree.preorderList ts, u.Neat) (hstart : startsAfter fresh x = true) :
    ts = [] ∧ fresh = true ∨ ∃ t ∈ ts.getLast?, t.content.EndsLine := by
  induction h with
  | nil => exact .inl ⟨rfl, hstart⟩
  | @text fresh note value children ts x y htext _ ih =>
    obtain ⟨ht, -, hts⟩ := Tree.forall_mem_preorderList_cons.1 hneat
    rw [startsAfter_append] at hstart
    exact .inr (endsLine_cons (fun h => endsLine_of_startsAfter htext (ht.text value rfl) h) (ih hts hstart))
  | @emphasis fresh note content width children ts x y d hwidth _ _ _ ih =>
    obtain ⟨-, -, hts⟩ := Tree.forall_mem_preorderList_cons.1 hneat
    have hmarks : List.replicate width d.char ≠ [] := by simp [Nat.ne_of_gt (Content.width_pos hwidth)]
    rw [startsAfter_append, startsAfter_append, startsAfter_append,
      startsAfter_eq_false hmarks (newline_notMem_marks d width)] at hstart
    exact .inr (endsLine_cons (fun h => by cases h) (ih hts hstart))
  | @link fresh note destination title children ts x y tail _ htail _ _ ih =>
    obtain ⟨-, -, hts⟩ := Tree.forall_mem_preorderList_cons.1 hneat
    obtain ⟨init, rfl⟩ := exists_of_linkTail htail
    have hsplit : '[' :: (x ++ ']' :: (init ++ [')'] ++ y)) = ('[' :: (x ++ ']' :: init) ++ [')']) ++ y := by simp
    rw [hsplit, startsAfter_append, startsAfter_concat] at hstart
    exact .inr (endsLine_cons (fun h => by cases h) (ih hts hstart))
  | inlineCode _ ih =>
    obtain ⟨-, -, hts⟩ := Tree.forall_mem_preorderList_cons.1 hneat
    rw [startsAfter_append, startsAfter_codeSpanText] at hstart
    exact .inr (endsLine_cons (fun h => by cases h) (ih hts hstart))
  | image himage _ ih =>
    obtain ⟨-, -, hts⟩ := Tree.forall_mem_preorderList_cons.1 hneat
    obtain ⟨init, rfl⟩ := exists_of_imageText himage
    rw [startsAfter_append, startsAfter_concat] at hstart
    exact .inr (endsLine_cons (fun h => by cases h) (ih hts hstart))
  | lineBreak _ ih =>
    obtain ⟨-, -, hts⟩ := Tree.forall_mem_preorderList_cons.1 hneat
    rw [startsAfter_append, startsAfter_lineBreak] at hstart
    exact .inr (endsLine_cons (fun _ => trivial) (ih hts hstart))

/-- What is printed behind a text does not go on with a number that the text ends with. -/
private theorem Writes.closes {fresh : Bool} {ts : List (Tree α)} {x : List Char} (h : Writes false fresh ts x)
    (hkind : ∀ t ∈ ts.head?, t.kind ≠ .text) {z : List Char} (hz : Closes z) : Closes (x ++ z) := by
  have hcons {c : Char} {cs : List Char} (hc : isDigit c = false ∧ c ≠ '.' ∧ c ≠ ')') : Closes (c :: cs) := by
    rintro d ⟨⟩
    exact hc
  cases h with
  | nil => exact hz
  | text => exact absurd rfl (hkind _ rfl)
  | emphasis d hwidth =>
    obtain ⟨n, rfl⟩ := Nat.exists_eq_add_of_le' (Content.width_pos hwidth)
    cases d
    · exact hcons ⟨by decide +kernel, by decide, by decide⟩
    · exact hcons ⟨by decide +kernel, by decide, by decide⟩
  | link => exact hcons ⟨by decide +kernel, by decide, by decide⟩
  | inlineCode =>
    rw [codeSpanText_eq_cons]
    exact hcons ⟨by decide +kernel, by decide, by decide⟩
  | image himage =>
    obtain ⟨rest, rfl⟩ := exists_cons_of_imageText himage
    exact hcons ⟨by decide +kernel, by decide, by decide⟩
  | lineBreak => exact hcons ⟨by decide +kernel, by decide, by decide⟩

private theorem quietLines_of_head {c : Char} {cs : List Char} (fresh : Bool) (hblank : isBlank c = false)
    (hline : isLineMark c = false) (hmark : c ∉ ['*', '_', '\x60']) (hdigit : isDigit c = false) (h : '\n' ∉ c :: cs) :
    QuietLines (fun _ => True) fresh (c :: cs) := by
  refine .of_false (.of_notMem h) fun _ z _ => isQuiet_firstLine ?_
  exact .of_head (cs ++ z) hblank hline hmark hdigit

private theorem quietLines_codeSpanText (fresh : Bool) {value : List Char} (hne : value ≠ []) :
    QuietLines (fun _ => True) fresh (codeSpanText value) := by
  have hnewline := newline_notMem_codeSpanText value
  refine .of_false (.of_notMem hnewline) fun _ z _ => ?_
  have hflat : flatten value ≠ [] := by simpa [flatten] using hne
  obtain ⟨hbody, hhead, -⟩ := padded_ends hflat
  obtain ⟨c, cs, hc⟩ := List.exists_cons_of_ne_nil hbody
  have htext : codeSpanText value = List.replicate (longestRun '\x60' 0 0 (flatten value) + 1) '\x60' ++
      c :: (cs ++ List.replicate (longestRun '\x60' 0 0 (flatten value) + 1) '\x60') := by
    rw [← List.cons_append, ← hc]
    simp [codeSpanText, padded]
  rw [firstLine_append hnewline, htext, List.append_assoc, List.cons_append]
  refine isQuiet_of_ticks (Nat.succ_pos _) ?_ (by simp)
  rw [hc] at hhead
  simpa using hhead

private theorem quietLines_emphasis (fresh : Bool) (d : Delimiter) {width : Nat} (hwidth : 0 < width) {x : List Char}
    (hx : QuietLines Closes false x) (hends : startsAfter false x = false) (hfirm : IsFirm false x) :
    QuietLines (fun _ => True) fresh (List.replicate width d.char ++ (x ++ List.replicate width d.char)) := by
  have hmarks : List.replicate width d.char ≠ [] := by simp [Nat.ne_of_gt hwidth]
  have hnewline := newline_notMem_marks d width
  have hcloses (z : List Char) : Closes (List.replicate width d.char ++ z) := by
    obtain ⟨n, rfl⟩ := Nat.exists_eq_add_of_le' hwidth
    rintro c ⟨⟩
    cases d
    · exact ⟨by decide +kernel, by decide, by decide⟩
    · exact ⟨by decide +kernel, by decide, by decide⟩
  -- The marks at the end start no line, as the content of emphasis ends none.
  have hinside : QuietLines (fun _ => True) false (x ++ List.replicate width d.char) := by
    refine hx.append ?_ fun z _ => hcloses z
    rw [hends]
    exact .of_notMem hnewline
  have hstart : QuietLines (fun _ => True) false (List.replicate width d.char) := .of_notMem hnewline
  refine .of_false (hstart.append ?_ fun _ _ => trivial) ?_
  · rwa [startsAfter_eq_false hmarks hnewline]
  · intro _ z _
    obtain ⟨marks, c, rest, rfl, hinner, hblank, hstar, hunder, -⟩ := hfirm
    have hall : ∀ e ∈ List.replicate width d.char ++ marks, e = '*' ∨ e = '_' :=
      List.forall_mem_append.2 ⟨fun e he => char_of_mem_marks he, hinner⟩
    have hline : '\n' ∉ List.replicate width d.char ++ marks := fun hmem => by
      rcases hall _ hmem with h | h <;> cases h
    have hc : c ≠ '\n' := by
      rintro rfl
      cases hblank
    have hsplit : List.replicate width d.char ++ (marks ++ c :: rest ++ List.replicate width d.char) ++ z =
        (List.replicate width d.char ++ marks) ++ c :: (rest ++ List.replicate width d.char ++ z) := by simp
    rw [hsplit, firstLine_append hline, firstLine_cons hc]
    exact isQuiet_of_marks (by simp [Nat.ne_of_gt hwidth]) hall hblank hstar hunder

private theorem quietLines_link (fresh : Bool) {x tail : List Char} (hx : QuietLines Closes false x)
    (htail : '\n' ∉ ']' :: tail) :
    QuietLines (fun _ => True) fresh ('[' :: (x ++ ']' :: tail)) := by
  have hclosed : QuietLines (fun _ => True) false (x ++ ']' :: tail) := by
    refine hx.append (quietLines_of_head _ (by decide) (by decide) (by decide) (by decide +kernel) htail) ?_
    rintro z - c ⟨⟩
    exact ⟨by decide +kernel, by decide, by decide⟩
  refine .of_false ((LineStarts.singleton '[').append hclosed fun _ _ => trivial) fun _ z _ => isQuiet_firstLine ?_
  exact .of_head _ (by decide) (by decide) (by decide) (by decide +kernel)

private theorem quietLines_lineBreak (fresh : Bool) : QuietLines (fun _ => True) fresh ['\\', '\n'] := by
  refine .of_false ((LineStarts.singleton '\\').append (LineStarts.singleton '\n') fun _ _ => trivial) ?_
  refine fun _ z _ => isQuiet_firstLine ?_
  exact .of_head _ (by decide) (by decide) (by decide) (by decide +kernel)

/-- No line of printed content opens a block if no link or image puts line feeds of its own into it. -/
theorem Writes.quietLines {fresh : Bool} {ts : List (Tree α)} {x : List Char} (h : Writes false fresh ts x)
    (hneat : ∀ u ∈ Tree.preorderList ts, u.Neat) (hrow : Tree.NeatRow fresh ts)
    (hplain : ∀ u ∈ Tree.preorderList ts, ¬u.content.HoldsNewline) : QuietLines Closes fresh x := by
  induction h with
  | nil => exact .nil
  | @text fresh note value children ts x y htext hrest ih =>
    obtain ⟨ht, -, hts⟩ := Tree.forall_mem_preorderList_cons.1 hneat
    obtain ⟨-, -, hplains⟩ := Tree.forall_mem_preorderList_cons.1 hplain
    have hends := endsLine_of_startsAfter htext (ht.text value rfl)
    have htexts : LineStarts Harmless Closes fresh x := by
      refine lineStarts_textText htext (fun hfresh => hrow.first hfresh _ rfl) ?_
      exact ht.tidy.1
    refine (htexts.mono fun cs => isQuiet_firstLine).append (ih hts (hrow.tail hends) hplains) fun z hz => ?_
    refine hrest.closes (fun t ht => ?_) hz
    have hapart := (List.isChain_cons.1 hrow.apart).1 t ht
    exact hapart.resolve_left fun hne => hne rfl
  | @emphasis fresh note content width children ts x y d hwidth hinner _ ihinner ih =>
    obtain ⟨ht, hneats, hts⟩ := Tree.forall_mem_preorderList_cons.1 hneat
    obtain ⟨-, hplain', hplains⟩ := Tree.forall_mem_preorderList_cons.1 hplain
    have hkind := Content.kind_of_width hwidth
    have hrow' := ht.row (.inr (.inr hkind))
    have hends : startsAfter false x = false := by
      refine Bool.eq_false_iff.2 fun hstart => ?_
      rcases hinner.endsLine hneats hstart with ⟨-, hfalse⟩ | ⟨t, hmem, hends⟩
      · cases hfalse
      · exact (hrow' false).2 t hmem hends
    have hfirm := hinner.isFirm (ht.nonempty (.inr hkind)) hneats ((hrow' true).1.first rfl)
    have hquiet := ihinner hneats (hrow' false).1 hplain'
    have hemphasis := quietLines_emphasis fresh d (Content.width_pos hwidth) hquiet hends hfirm
    have hmarks : List.replicate width d.char ≠ [] := by simp [Nat.ne_of_gt (Content.width_pos hwidth)]
    have hsplit : List.replicate width d.char ++ (x ++ (List.replicate width d.char ++ y)) =
        List.replicate width d.char ++ (x ++ List.replicate width d.char) ++ y := by simp
    rw [hsplit]
    refine hemphasis.append ?_ fun _ _ => trivial
    rw [startsAfter_append, startsAfter_append, startsAfter_eq_false hmarks (newline_notMem_marks d width)]
    exact ih hts (hrow.tail fun h => by cases h) hplains
  | @link fresh note destination title children ts x y tail hinner htail _ ihinner ih =>
    obtain ⟨ht, hneats, hts⟩ := Tree.forall_mem_preorderList_cons.1 hneat
    obtain ⟨hnone, hplain', hplains⟩ := Tree.forall_mem_preorderList_cons.1 hplain
    have hchain : (children.map Tree.content).IsChain Content.Follows := ht.tidy
    have htail' : '\n' ∉ ']' :: tail := by
      rw [List.mem_cons, newline_mem_linkTail htail, not_or]
      exact ⟨by decide, hnone⟩
    have hlink := quietLines_link fresh (ihinner hneats ⟨by simp, hchain, ht.apart⟩ hplain') htail'
    have hsplit : '[' :: (x ++ ']' :: (tail ++ y)) = '[' :: (x ++ ']' :: tail) ++ y := by simp
    rw [hsplit]
    refine hlink.append ?_ fun _ _ => trivial
    obtain ⟨init, rfl⟩ := exists_of_linkTail htail
    have hlast : '[' :: (x ++ ']' :: (init ++ [')'])) = '[' :: (x ++ ']' :: init) ++ [')'] := by simp
    rw [hlast, startsAfter_concat]
    exact ih hts (hrow.tail fun h => by cases h) hplains
  | @inlineCode fresh note value children ts y _ ih =>
    obtain ⟨ht, -, hts⟩ := Tree.forall_mem_preorderList_cons.1 hneat
    obtain ⟨-, -, hplains⟩ := Tree.forall_mem_preorderList_cons.1 hplain
    have hne : value.toList ≠ [] := mt String.toList_eq_nil_iff.1 (ht.inlineCode value rfl)
    refine (quietLines_codeSpanText fresh hne).append ?_ fun _ _ => trivial
    rw [startsAfter_codeSpanText]
    exact ih hts (hrow.tail fun h => by cases h) hplains
  | @image fresh note destination alt title children ts x y himage _ ih =>
    obtain ⟨-, -, hts⟩ := Tree.forall_mem_preorderList_cons.1 hneat
    obtain ⟨hnone, -, hplains⟩ := Tree.forall_mem_preorderList_cons.1 hplain
    obtain ⟨init, hinit⟩ := exists_of_imageText himage
    obtain ⟨rest, rfl⟩ := exists_cons_of_imageText himage
    have hnewline := mt (newline_mem_imageText himage).1 hnone
    have himage' := quietLines_of_head fresh (by decide) (by decide) (by decide) (by decide +kernel) hnewline
    refine himage'.append ?_ fun _ _ => trivial
    rw [hinit, startsAfter_concat]
    exact ih hts (hrow.tail fun h => by cases h) hplains
  | @lineBreak fresh note children ts y _ ih =>
    obtain ⟨-, -, hts⟩ := Tree.forall_mem_preorderList_cons.1 hneat
    obtain ⟨-, -, hplains⟩ := Tree.forall_mem_preorderList_cons.1 hplain
    exact (quietLines_lineBreak fresh).append (ih hts (hrow.tail fun _ => trivial) hplains) fun _ _ => trivial

end Print

end MarkdownTree
