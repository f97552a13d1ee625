import MarkdownTree.Proofs.PlainPrint
import MarkdownTree.Proofs.Respelling

/-!
# Printing text and emphasis

What is printed for trees of plain text and emphasis spells them, with the delimiters that have been decided on wherever
there are any (`renderInlines_spells`).  So where some row of delimiters gives a text that reads back as the trees, and
they are not too many to try all rows, what is printed reads back as them (`settle_reads`), and so does the document of
a paragraph (`printTree_paragraph`).
-/

namespace MarkdownTree.Print

open Text Draft

/-! ### Drafts -/

theorem ofTrees_eq_map (ts : List (Tree (Option Position))) : Draft.ofTrees ts = ts.map Draft.ofTree := by
  induction ts with
  | nil => rfl
  | cons t ts ih => rw [Draft.ofTrees, ih, List.map_cons]

theorem printed_node (content : Content) (children : List (Tree Unit)) :
    printed (.node () content children) = .node content.kind content.fields none (children.map printed) none := by
  rw [printed, Tree.map, Draft.ofTree, ofTrees_eq_map, Tree.mapList_eq_map, List.map_map]
  rfl

private theorem isEmphasis_of_width {content : Content} {width : Nat} (h : content.width? = some width) :
    isEmphasis content.kind = true := by
  rcases Content.width_cases h with ⟨rfl, -⟩ | ⟨rfl, -⟩ <;> rfl

section

variable {ts us : List (Tree Unit)} {row row' : List Delimiter} {cs cs' : List Char}

/-- There are as many emphasis nodes as delimiters. -/
private theorem emphasisCountList_printed (h : Spells ts row cs) : emphasisCountList (ts.map printed) = row.length := by
  induction h with
  | nil => rfl
  | text _ _ _ ih =>
    rw [List.map_cons, emphasisCountList, ih, printed_node, emphasisCount]
    exact Nat.zero_add _
  | emphasis d hwidth _ _ ihinner ih =>
    rw [List.map_cons, emphasisCountList, ih, printed_node, emphasisCount, ihinner, if_pos (isEmphasis_of_width hwidth)]
    simp
    omega

/-- No node has an identity. -/
private theorem emphasisIdsList_printed (h : Spells ts row cs) :
    emphasisIdsList (ts.map printed) = .ok (List.replicate row.length none) := by
  induction h with
  | nil => rfl
  | text _ _ _ ih =>
    rw [List.map_cons, emphasisIdsList, ih, printed_node, emphasisIds, checkChildren_fields]
    rfl
  | emphasis d hwidth _ _ ihinner ih =>
    rw [List.map_cons, emphasisIdsList, ih, printed_node, emphasisIds, checkChildren_fields, ihinner]
    rw [List.length_cons, List.length_append, List.replicate_succ, ← List.replicate_append_replicate]
    show Except.ok ((if isEmphasis _ then none :: List.replicate _ none else _ : List (Option Nat)) ++ _) = _
    rw [if_pos (isEmphasis_of_width hwidth)]
    rfl

theorem consText_of_ne {value : String} (hne : value ≠ "") (hnext : ∀ t ∈ ts.head?, t.kind ≠ .text) :
    consText value.toList (ts.map printed) = .ofText value :: ts.map printed := by
  rw [consText, if_neg (by simpa using hne), String.ofList_toList]
  -- No text comes next that the text could merge with.
  intro name more place id rest hrest
  cases ts with
  | nil => cases hrest
  | cons t ts =>
    obtain ⟨⟨⟩, content, children⟩ := t
    rw [List.map_cons, printed_node] at hrest
    exact hnext _ rfl (Draft.node.inj (List.cons.inj hrest).1).1

/-- All of the trees has to survive. -/
private theorem phrase_printed (h : Spells ts row cs) : phrase false (ts.map printed) = ts.map printed := by
  induction h with
  | nil => rfl
  | text hne hnext _ ih =>
    rw [List.map_cons, phrase, ih, printed_node, show (Content.text _).kind = .text from rfl, phraseNode]
    exact consText_of_ne hne hnext
  | emphasis d hwidth _ _ ihinner ih =>
    rw [List.map_cons, phrase, ih, printed_node]
    rcases Content.width_cases hwidth with ⟨rfl, -⟩ | ⟨rfl, -⟩
    · rw [show Content.emphasis.kind = .emphasis from rfl, phraseNode, ihinner]
      rfl
    · rw [show Content.strong.kind = .strong from rfl, phraseNode, ihinner]
      rfl

private theorem same_printed {c d : Content} (hc : c.kind = .text ∨ isEmphasis c.kind = true)
    (us ts : List (Tree Unit)) :
    same (printed (.node () c us)) (printed (.node () d ts)) = true ↔
      c = d ∧ sameList (us.map printed) (ts.map printed) = true := by
  have hvalues (hkind : c.kind = d.kind) :
      Value.sameList (values c.kind c.fields) (values d.kind d.fields) = true ↔ c = d := by
    rcases hc with hc | hc
    · cases c <;> cases hc
      cases d <;> cases hkind
      rename_i v w
      show ((Value.text v).same (.text w) && true) = true ↔ Content.text v = .text w
      simp [Value.same]
    · cases c <;> cases hc <;> cases d <;> cases hkind <;> exact iff_of_true rfl rfl
  rw [printed_node, printed_node, same, Bool.and_eq_true, Bool.and_eq_true, beq_iff_eq]
  constructor
  · rintro ⟨⟨hkind, hsame⟩, hchildren⟩
    exact ⟨(hvalues hkind).1 hsame, hchildren⟩
  · rintro ⟨rfl, hchildren⟩
    exact ⟨⟨rfl, (hvalues rfl).2 rfl⟩, hchildren⟩

/-- Drafts of such trees are the same only if the trees are. -/
private theorem sameList_printed (h : Spells us row cs) (h' : Spells ts row' cs') :
    sameList (us.map printed) (ts.map printed) = true ↔ us = ts := by
  induction h generalizing ts row' cs' with
  | nil => cases h' <;> simp [sameList]
  | text _ _ _ ih =>
    cases h' with
    | nil => simp [sameList]
    | text _ _ hrest =>
      rw [List.map_cons, List.map_cons, sameList, Bool.and_eq_true, same_printed (.inl rfl), ih hrest]
      simp [sameList]
    | emphasis _ hwidth =>
      rw [List.map_cons, List.map_cons, sameList, Bool.and_eq_true, same_printed (.inl rfl)]
      rcases Content.width_cases hwidth with ⟨rfl, -⟩ | ⟨rfl, -⟩ <;> simp
  | emphasis _ hwidth _ _ ihinner ih =>
    have hkind := isEmphasis_of_width hwidth
    cases h' with
    | nil => simp [sameList]
    | text =>
      rw [List.map_cons, List.map_cons, sameList, Bool.and_eq_true, same_printed (.inr hkind)]
      rcases Content.width_cases hwidth with ⟨rfl, -⟩ | ⟨rfl, -⟩ <;> simp
    | emphasis _ _ hinner hrest =>
      rw [List.map_cons, List.map_cons, sameList, Bool.and_eq_true, same_printed (.inr hkind), ihinner hinner, ih hrest]
      simp

end

/-! ### Printing -/

/-- A row has the delimiters that have been decided on, the first of them at a rank. -/
def Follows (decided : Nat → Option Delimiter) (rank : Nat) (row : List Delimiter) : Prop :=
  ∀ i, i < row.length → ∀ d ∈ decided (rank + i), row[i]? = some d

private theorem Follows.cons_append {decided : Nat → Option Delimiter} {rank : Nat} {d : Delimiter}
    {below row : List Delimiter}
    (hd : ∀ e ∈ decided rank, d = e) (hbelow : Follows decided (rank + 1) below)
    (hrow : Follows decided (rank + 1 + below.length) row) : Follows decided rank (d :: (below ++ row)) := by
  intro i hi e he
  cases i with
  | zero => rw [List.getElem?_cons_zero, hd e he]
  | succ i =>
    rw [List.getElem?_cons_succ]
    by_cases hlt : i < below.length
    · rw [List.getElem?_append_left hlt]
      exact hbelow i hlt e (by rwa [show rank + 1 + i = rank + (i + 1) by omega])
    · rw [List.getElem?_append_right (by omega)]
      simp only [List.length_cons, List.length_append] at hi
      refine hrow (i - below.length) (by omega) e ?_
      rwa [show rank + 1 + below.length + (i - below.length) = rank + (i + 1) by omega]

section

variable (o : PrintOptions) {ts : List (Tree Unit)} {row : List Delimiter} {cs : List Char}

/-- What follows a node can be told, and it is no link. -/
private theorem follow_printed (h : Spells ts row cs) {after : Opening} (hafter : after.Known) :
    ∃ opening next, follow after (ts.map printed) = .ok (opening, next) ∧ opening.Known ∧ next ≠ some .link := by
  cases ts with
  | nil => exact ⟨after, none, rfl, hafter, by simp⟩
  | cons t ts =>
    obtain ⟨opening, hopening, hknown⟩ := openingOf_ofTree (t.map fun _ => none)
    obtain ⟨⟨⟩, content, children⟩ := t
    refine ⟨opening, some content.kind, ?_, hknown, fun hlink => ?_⟩
    · change openingOf (printed _) = _ at hopening
      rw [printed_node] at hopening
      rw [List.map_cons, printed_node, follow, hopening]
      · rfl
      · intro v hother
        cases hother
    · cases h with
      | text => cases hlink
      | emphasis _ hwidth => rcases Content.width_cases hwidth with ⟨rfl, -⟩ | ⟨rfl, -⟩ <;> cases hlink

/-- A text that is not at the start of a line is printed as it is, and one that needs no escape there. -/
private theorem render_plainText (s : Scene) {value : String}
    (hplain : ∀ c ∈ value.toList, isSpecial false c = false ∧ c ≠ '\n') {pen : Pen} (hatx : pen.atx = false)
    (hstart : pen.around.atLineStart = true → escapeLineStart value.toList = value.toList)
    (hnext : pen.around.next ≠ some .link) :
    (Printer.standard o).render s (printed (.node () (.text value) [])) pen = .ok (value.toList, pen) := by
  have hfields : fields '\n' value.toList = [value.toList] :=
    fields_of_notMem fun hmem => (hplain _ hmem).2 rfl
  have hwhere : escapeWhere (isSpecial false) value.toList = value.toList := by
    rw [escapeWhere]
    refine (List.flatMap_congr fun c hc => if_neg ?_).trans (List.flatMap_singleton' _)
    rw [(hplain c hc).1]
    decide
  have hescape : escape pen.around.atLineStart false value.toList = value.toList := by
    rw [escape, hfields, escapeLines, hwhere, escapeLines, join]
    split
    · rename_i hline
      exact hstart hline
    · rfl
  refine run_text o ?_
  rw [hatx, beq_false_of_ne hnext]
  exact congrArg Except.ok hescape

theorem delimiterFor_ok (s : Scene) (preferred : Delimiter) {pen : Pen} (hafter : pen.around.after.Known) :
    ∃ d, (Printer.delimiterFor s preferred : Printing (Except Fault) Delimiter) pen = .ok (d, pen) ∧
      ∀ e ∈ pen.decided s.rank, d = e := by
  rw [Printer.delimiterFor]
  cases hdecided : pen.decided s.rank with
  | some d =>
    refine ⟨d, (run_bind pen pen rfl).trans ?_, fun e he => Option.some.inj he⟩
    rw [hdecided]
    rfl
  | none =>
    obtain ⟨d, hd⟩ := chooseDelimiter_known preferred hafter
    refine ⟨d, (run_bind pen pen rfl).trans ?_, by simp⟩
    rw [hdecided, hd]
    rfl

/-- Emphasis is printed between delimiters: the one that has been decided on, or else some. -/
private theorem render_emphasis (s : Scene) {content : Content} {width : Nat} (hwidth : content.width? = some width)
    (inner : List (Tree Unit)) (pen : Pen) (hafter : pen.around.after.Known) :
    ∃ d : Delimiter, (∀ e ∈ pen.decided s.rank, d = e) ∧ ∀ text pen',
      (Printer.standard o).renderInlines (s.past 1) (some d) (some d.char) (.char d.char) true (inner.map printed) none
          pen = .ok (text, pen') →
        (Printer.standard o).render s (printed (.node () content inner)) pen =
          .ok (List.replicate width d.char ++ (text ++ List.replicate width d.char), pen') := by
  obtain ⟨d, hd, hdecided⟩ := delimiterFor_ok s (preferred o content) hafter
  refine ⟨d, hdecided, fun text pen' hinner => ?_⟩
  rw [printed_node]
  exact run_emphasis o hwidth hd hinner

/-- Inline siblings are printed one after the other: the first with what surrounds it, then the rest. -/
private theorem renderInlines_cons (s : Scene) (outer : Option Delimiter) (before : Option Char) {after : Opening}
    (first : Bool) (touching : Option Char) (t : Tree Unit) (h : Spells ts row cs) (hafter : after.Known) (pen : Pen) :
    ∃ around : Surroundings, around.before = before ∧ around.after.Known ∧ around.next ≠ some .link ∧
      ∀ text pen', (Printer.standard o).render s (printed t) { pen with around } = .ok (text, pen') →
        ∃ touching',
          (Printer.standard o).renderInlines s outer before after first ((t :: ts).map printed) touching pen =
            ((Printer.standard o).renderInlines (s.past (emphasisCount (printed t))) outer (text.getLast?.or before)
              after false (ts.map printed) touching' >>= fun rest => pure (text ++ rest)) pen' := by
  obtain ⟨opening, next, hfollow, hopening, hnext⟩ := follow_printed h hafter
  let edge := if first || (ts.map printed).isEmpty then outer.map Delimiter.char else none
  refine ⟨⟨before, opening, edge.toList ++ touching.toList, next⟩, rfl, hopening, hnext, fun text pen' hrender =>
    ⟨if (printed t).kind?.any isEmphasis then text.head? else none, ?_⟩⟩
  rw [List.map_cons, Printer.renderInlines, hfollow]
  exact (run_bind _ pen rfl).trans ((run_bind () _ rfl).trans (run_bind text pen' hrender))

/-- Inline content is printed in a way that spells it, with the delimiters that have been decided on. -/
theorem renderInlines_spells (h : Spells ts row cs)
    (hplain : ∀ t ∈ Tree.preorderList ts, ∀ value, t.content = .text value →
      ∀ c ∈ value.toList, isSpecial false c = false ∧ c ≠ '\n')
    (s : Scene) (outer : Option Delimiter) (before : Option Char) {after : Opening} (first : Bool)
    (touching : Option Char) (pen : Pen) (hafter : after.Known) (hatx : pen.atx = false)
    (hbefore : ∀ c ∈ before, c ≠ '\n') (hstart : before = none → escapeLineStart cs = cs) :
    ∃ text pen' row', (Printer.standard o).renderInlines s outer before after first (ts.map printed) touching pen =
        .ok (text, pen') ∧ pen'.atx = false ∧ pen'.decided = pen.decided ∧ Spells ts row' text ∧
      Follows pen.decided s.rank row' := by
  induction h generalizing s outer before after first touching pen with
  | nil =>
    refine ⟨[], pen, [], ?_, hatx, rfl, .nil, fun i hi => by cases hi⟩
    rw [List.map_nil, Printer.renderInlines]
    rfl
  | @text value ts row cs hne hnext hrest ih =>
    obtain ⟨hvalue, -, hplain⟩ := Tree.forall_mem_preorderList_cons.1 hplain
    obtain ⟨around, rfl, -, hlink, hcons⟩ := renderInlines_cons o s outer before first touching
      (.node () (.text value) []) hrest hafter pen
    -- Only what comes first in a paragraph starts a line: before anything else stands a character of the line.
    have hline : around.atLineStart = true → escapeLineStart value.toList = value.toList := by
      intro hfresh
      rw [Surroundings.atLineStart, Option.all_eq_true] at hfresh
      have hnone : around.before = none :=
        Option.eq_none_iff_forall_not_mem.2 fun c hc => hbefore c hc (by simpa using hfresh c hc)
      exact escapeLineStart_of_append (hstart hnone)
    obtain ⟨touching', hrun⟩ :=
      hcons value.toList { pen with around } (render_plainText o s (hvalue value rfl) hatx hline hlink)
    obtain ⟨c, hc⟩ : ∃ c, value.toList.getLast? = some c :=
      Option.ne_none_iff_exists'.1 (mt List.getLast?_eq_none_iff.1 (by simpa using hne))
    obtain ⟨text, pen', row', hrender, hatx', hdecided, hspells, hfollows⟩ :=
      ih hplain (s.past 0) outer (some c) false touching' { pen with around } hafter hatx
        (fun d hd => by cases hd; exact (hvalue value rfl c (List.mem_of_getLast? hc)).2) (fun h => by cases h)
    refine ⟨value.toList ++ text, pen', row', ?_, hatx', hdecided, hspells.text hne hnext, hfollows⟩
    rw [hrun, hc]
    exact run_bind text pen' hrender
  | @emphasis content width inner ts below row cs ds d hwidth hinner hrest ihinner ih =>
    obtain ⟨-, hplain, hplain'⟩ := Tree.forall_mem_preorderList_cons.1 hplain
    obtain ⟨around, rfl, hknown, -, hcons⟩ := renderInlines_cons o s outer before first touching
      (.node () content inner) hrest hafter pen
    obtain ⟨e, he, hrender⟩ := render_emphasis o s hwidth inner { pen with around } hknown
    have hne : ∀ c ∈ some e.char, c ≠ '\n' := by
      rintro c ⟨⟩
      cases e <;> decide
    obtain ⟨middle, pen₁, below', hmiddle, hatx₁, hdecided₁, hbelow, hfollows₁⟩ :=
      ihinner hplain (s.past 1) (some e) (some e.char) true none { pen with around }
        (show (Opening.char e.char).Known from ⟨_, rfl⟩) hatx hne (fun h => by cases h)
    obtain ⟨touching', hrun⟩ := hcons _ _ (hrender middle pen₁ hmiddle)
    -- The ranks of what follows come after those of the node and of what stands in it.
    have hcount : emphasisCount (printed (.node () content inner)) = below.length + 1 := by
      rw [printed_node, emphasisCount, emphasisCountList_printed hinner, if_pos (isEmphasis_of_width hwidth)]
      omega
    obtain ⟨text, pen₂, row', hrest', hatx₂, hdecided₂, hspells, hfollows₂⟩ :=
      ih hplain' (s.past (emphasisCount (printed (.node () content inner)))) outer (some e.char) false touching'
        pen₁ hafter hatx₁ hne (fun h => by cases h)
    have hlength : below'.length = below.length := by
      rw [hbelow.length_row, hinner.length_row]
    refine ⟨_, pen₂, e :: (below' ++ row'), ?_, hatx₂, hdecided₂.trans hdecided₁, .emphasis e hwidth hbelow hspells, ?_⟩
    · have hlast : (List.replicate width e.char ++ (middle ++ List.replicate width e.char)).getLast? = some e.char := by
        simp [List.getLast?_append, List.getLast?_replicate, Nat.ne_of_gt (Content.width_pos hwidth)]
      rw [hrun, hlast, Option.some_or]
      refine (run_bind text pen₂ hrest').trans ?_
      simp only [List.append_assoc]
      rfl
    · rw [hdecided₁] at hfollows₂
      refine Follows.cons_append he hfollows₁ ?_
      rwa [hlength, Nat.add_assoc, Nat.add_comm 1, ← hcount]

end

/-! ### The choice of delimiters -/

/-- Every row of delimiters is tried. -/
private theorem mem_delimiterRows (row : List Delimiter) : row ∈ delimiterRows row.length := by
  induction row with
  | nil => exact List.mem_singleton_self _
  | cons d row ih =>
    refine List.mem_flatMap.2 ⟨d, ?_, List.mem_map_of_mem ih⟩
    cases d <;> decide

/-- Nodes without identities have the delimiters of a row by their ranks. -/
private theorem decide_replicate (rank n : Nat) (row : List Delimiter) (i : Nat) :
    decide rank (List.replicate n none) row (rank + i) = row[i]? := by
  rw [decide, if_neg (by omega), Nat.add_sub_cancel_left]
  split
  · rename_i id hid
    have hnone := (List.mem_replicate.1 (List.mem_of_getElem? hid)).2
    cases hnone
  · rfl

section

variable {ts : List (Tree Unit)} {row : List Delimiter} {cs : List Char}

/-- A row that has all delimiters of another one is that one. -/
private theorem Follows.eq {rank n : Nat} {row' : List Delimiter}
    (h : Follows (decide rank (List.replicate n none) row) rank row') (hlength : row'.length = row.length) :
    row' = row := by
  refine List.ext_getElem? fun i => ?_
  by_cases hi : i < row'.length
  · have hrow := List.getElem?_eq_getElem (l := row) (hlength ▸ hi)
    rw [hrow]
    exact h i hi _ ((decide_replicate rank n row i).trans hrow)
  · rw [List.getElem?_eq_none (by omega), List.getElem?_eq_none (by omega)]

/-- Printing that gives a text that spells the trees with the delimiters that have been decided on, from a rank on. -/
def Respells (ts : List (Tree Unit)) (rank : Nat) (x : Printing (Except Fault) (List Char)) : Prop :=
  ∀ pen : Pen, pen.atx = false → ∃ text pen' row, x pen = .ok (text, pen') ∧ pen'.atx = false ∧
    pen'.decided = pen.decided ∧ Spells ts row text ∧ Follows pen.decided rank row

variable {s : Scene} {expected : List Draft} {attempt : Printing (Except Fault) (List Char)}
  (hattempt : Respells ts s.rank attempt) (h : Spells ts row cs) (hintact : isIntact false expected cs = true)
include hattempt h hintact

/-- Where a row is among those that are tried and its text reads back, some text is found that does. -/
private theorem firstIntact_reads (n : Nat) {rows : List (Nat → Option Delimiter)}
    (hrow : decide s.rank (List.replicate n none) row ∈ rows) (pen : Pen) (hatx : pen.atx = false) :
    ∃ text pen' row', Printer.firstIntact expected attempt rows pen = .ok (some text, pen') ∧ pen'.atx = false ∧
      Spells ts row' text ∧ isIntact false expected text = true := by
  induction rows generalizing pen with
  | nil => cases hrow
  | cons decided rows ih =>
    obtain ⟨text, pen₁, row', hrun, hatx₁, -, hspells, hfollows⟩ := hattempt { pen with decided } hatx
    obtain ⟨pen₂, hatx₂, hstep⟩ : ∃ pen₂ : Pen, pen₂.atx = false ∧
        Printer.firstIntact expected attempt (decided :: rows) pen =
          (if isIntact false expected text then pure (some text) else Printer.firstIntact expected attempt rows :
            Printing (Except Fault) (Option (List Char))) pen₂ := by
      refine ⟨{ pen₁ with decided := fun _ => none }, hatx₁, ?_⟩
      rw [Printer.firstIntact, ← hatx₁]
      exact (run_bind () _ rfl).trans ((run_bind text pen₁ hrun).trans rfl)
    rw [hstep]
    cases hreads : isIntact false expected text with
    | true => exact ⟨text, pen₂, row', rfl, hatx₂, hspells, hreads⟩
    | false =>
      refine ih ((List.mem_cons.1 hrow).resolve_left ?_) pen₂ hatx₂
      -- The text of the row itself reads back.
      rintro rfl
      obtain rfl := hfollows.eq (hspells.length_row.trans h.length_row.symm)
      rw [hspells.unique h, hintact] at hreads
      cases hreads

/-- Where some row gives a text that reads back, and there are not too many rows, what is printed reads back. -/
theorem settle_reads (o : PrintOptions) (hlimit : row.length ≤ searchLimit)
    (hexpected : expected = phrase false (ts.map printed)) (pen : Pen) (hatx : pen.atx = false) :
    ∃ text pen' row', (Printer.standard o).settle s (ts.map printed) attempt pen = .ok (text, pen') ∧
      pen'.atx = false ∧ Spells ts row' text ∧ isIntact false expected text = true := by
  subst hexpected
  obtain ⟨text, pen₁, row', hrun, hatx₁, hdecided, hspells, hfollows⟩ := hattempt pen hatx
  set ids := List.replicate row.length (none : Option Nat)
  have hids : emphasisIdsList (ts.map printed) = .ok ids := emphasisIdsList_printed h
  rw [Printer.settle, run_bind text pen₁ hrun, run_bind ids pen₁ (by rw [hids]; rfl), run_bind pen₁ pen₁ rfl]
  rw [hatx₁]
  by_cases hreads : isIntact false (phrase false (ts.map printed)) text = true
  · refine ⟨text, pen₁, row', ?_, hatx₁, hspells, hreads⟩
    rw [hreads, Bool.or_true, if_pos rfl]
    rfl
  · -- Other delimiters are tried, as there are some.
    have hne : ids.isEmpty = false := by
      rw [List.isEmpty_eq_false_iff]
      intro hnil
      obtain rfl : row = [] := List.length_eq_zero_iff.1 (by simpa [ids] using hnil)
      obtain rfl : row' = [] := List.length_eq_zero_iff.1 (hspells.length_row.trans h.length_row.symm)
      rw [hspells.unique h] at hreads
      exact hreads hintact
    have hlength : ids.length = row.length := List.length_replicate
    obtain ⟨other, pen₂, row₂, hfound, hatx₂, hother, hreads'⟩ := firstIntact_reads hattempt h hintact row.length
      (List.mem_map_of_mem (mem_delimiterRows row)) pen₁ hatx₁
    refine ⟨other, pen₂, row₂, ?_, hatx₂, hother, hreads'⟩
    rw [if_neg (by simp [hne, hreads, show (Printer.standard o).hasStandardInline = true from rfl]),
      if_neg (by omega), hlength]
    exact run_bind (some other) pen₂ hfound

end

/-! ### Paragraphs -/

private theorem contentLines_of_trimmed {text : List Char} (h : Scan.IsTrimmed text) (hnewline : '\n' ∉ text) :
    contentLines false text = [text] := by
  obtain ⟨⟨c, hc, hblank⟩, hlast⟩ := h
  obtain ⟨cs, rfl⟩ := List.head?_eq_some_iff.1 hc
  have hstart : trimStart (c :: cs) = c :: cs := List.dropWhile_cons_of_neg (by simp [hblank])
  have hend : trimEnd (c :: cs) = c :: cs := dropEndWhile_eq_self hlast
  rw [contentLines, fields_of_notMem hnewline]
  simp [hstart, hend]

section

variable {ts : List (Tree Unit)} {row : List Delimiter} {cs : List Char} (h : Spells ts row cs)
include h

/-- A text that spells the trees survives where it reads as them. -/
theorem isIntact_printed (htrimmed : Scan.IsTrimmed cs) (hcs : ∀ c ∈ cs, Scan.startsOther c = false) :
    isIntact false (phrase false (ts.map printed)) cs = true ↔ (Scan.readInline cs).trees.map Tree.erase = ts := by
  have hnewline : '\n' ∉ cs := fun hmem => absurd (hcs _ hmem) (by decide)
  obtain ⟨row', hread⟩ := Scan.spells_readInline hcs
  have hdrafts : Draft.ofTrees ((Scan.readInline cs).trees.map (·.map fun _ => none)) =
      ((Scan.readInline cs).trees.map Tree.erase).map printed := by
    rw [ofTrees_eq_map, List.map_map, List.map_map]
    refine List.map_congr_left fun t _ => ?_
    rw [Function.comp_apply, Function.comp_apply, printed, Tree.erase, Tree.map_map]
  have hrescan : rescan false cs = ((Scan.readInline cs).trees.map Tree.erase).map printed := by
    rw [rescan, contentLines_of_trimmed htrimmed hnewline, join, hdrafts, phrase_printed hread]
  rw [isIntact, hrescan, phrase_printed h, sameList_printed hread h]

private theorem respells_renderInlines (o : PrintOptions)
    (hplain : ∀ t ∈ Tree.preorderList ts, ∀ value, t.content = .text value →
      ∀ c ∈ value.toList, isSpecial false c = false ∧ c ≠ '\n')
    (hstart : escapeLineStart cs = cs) (s : Scene) :
    Respells ts s.rank
      ((Printer.standard o).renderInlines s none none .nothing true (ts.map printed)) := by
  intro pen hatx
  exact renderInlines_spells o h hplain s none none true none pen ⟨false, rfl⟩ hatx (by simp) fun _ => hstart

/-- The document of a paragraph is printed as a text that reads as its trees, where that can be written at all and not
too many delimiters can be chosen. -/
theorem printTree_paragraph (o : PrintOptions) (hne : cs ≠ [])
    (hplain : ∀ t ∈ Tree.preorderList ts, ∀ value, t.content = .text value →
      ∀ c ∈ value.toList, isSpecial false c = false ∧ c ≠ '\n')
    (hstart : escapeLineStart cs = cs) (hlimit : row.length ≤ searchLimit)
    (hintact : isIntact false (phrase false (ts.map printed)) cs = true) :
    ∃ text row', printTree o (.node () .root [.node () .paragraph ts]) = .ok (text ++ ['\n']) ∧
      Spells ts row' text ∧ isIntact false (phrase false (ts.map printed)) text = true := by
  obtain ⟨text, pen, row', hsettle, -, hspells, hreads⟩ := settle_reads
    (respells_renderInlines h o hplain hstart (Scene.inside {} { kind := .root })) h hintact o hlimit rfl
    { symbols := [none] } rfl
  have htext : text ≠ [] := by rwa [ne_eq, hspells.eq_nil_iff, ← h.eq_nil_iff]
  refine ⟨text, row', ?_, hspells, hreads⟩
  have hparagraph : (Printer.standard o).render (Scene.inside {} { kind := .root })
      (.node .paragraph [] none (ts.map printed) none) { symbols := [none] } = .ok (text, pen) := by
    rw [Printer.render]
    exact (run_bind () _ rfl).trans hsettle
  have hblocks : (Printer.standard o).renderBlocks {} { kind := .root }
      [.node .paragraph [] none (ts.map printed) none] { symbols := [none] } = .ok ([text], pen) := by
    rw [Printer.renderBlocks]
    refine (run_bind text pen hparagraph).trans ?_
    rw [Printer.renderBlocks]
    refine (run_bind [] pen rfl).trans ?_
    rw [if_neg (by simpa using htext)]
    rfl
  have hroot : (Printer.standard o).render {} (printed (.node () .root [.node () .paragraph ts])) {} =
      .ok (text, { pen with symbols := pen.symbols.tail }) := by
    rw [printed_node, List.map_singleton, printed_node, Printer.render]
    refine (run_bind () _ rfl).trans ((run_bind [text] { pen with symbols := pen.symbols.tail } ?_).trans rfl)
    exact (run_bind () { symbols := [none] } rfl).trans ((run_bind [text] pen hblocks).trans rfl)
  show (((Printer.standard o).render {} (printed _) {} >>= fun p => pure p.1) >>=
    fun text => pure (if text.isEmpty then [] else text ++ ['\n'])) = Except.ok _
  rw [hroot]
  show Except.ok (if _ then _ else _) = _
  rw [if_neg (by simpa using htext)]

end

end MarkdownTree.Print
