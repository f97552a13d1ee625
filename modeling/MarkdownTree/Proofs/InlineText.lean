import MarkdownTree.Proofs.BlockPrint

/-!
# The text of inline content

The text that inline content is printed as depends on its nodes, on the settings and on whether a marked heading is
printed (`inlineContent_eq`).  It does not depend on the containers around it, on what was printed before it, or on how
many emphasis nodes came before, as delimiters are decided on by the ranks of nodes within the content.
-/

namespace MarkdownTree.Print

open Text

variable (o : PrintOptions)

/-- The delimiters of the emphasis nodes from a rank on are decided on as in a choice. -/
def Pen.Decides (pen : Pen) (rank : Nat) (choice : Nat → Option Delimiter) : Prop :=
  ∀ k, pen.decided (rank + k) = choice k

private theorem Pen.Decides.past {pen : Pen} {s : Scene} {choice : Nat → Option Delimiter}
    (h : pen.Decides s.rank choice)
    (n : Nat) : pen.Decides (s.past n).rank fun k => choice (n + k) := by
  intro k
  show pen.decided (s.rank + n + k) = choice (n + k)
  rw [Nat.add_assoc, h]

/-- Printing that gives one text in all scenes, from the same choice of delimiters, and changes only what surrounds the
pen. -/
def Steady (atx : Bool) (choice : Nat → Option Delimiter) (x : Scene → Printing (Except Fault) (List Char)) : Prop :=
  ∃ text, ∀ (s : Scene) (pen : Pen), pen.around.after.Known → pen.atx = atx → pen.Decides s.rank choice →
    ∃ around : Surroundings, around.after.Known ∧ x s pen = .ok (text, { pen with around })

/-! ### Inline nodes -/

private theorem exists_delimiterFor (preferred : Delimiter) {around : Surroundings} (hafter : around.after.Known)
    (choice : Nat → Option Delimiter) : ∃ d, ∀ (s : Scene) (pen : Pen), pen.around = around →
      pen.Decides s.rank choice →
        (Printer.delimiterFor s preferred : Printing (Except Fault) Delimiter) pen = .ok (d, pen) := by
  obtain ⟨d, hd⟩ := chooseDelimiter_known preferred hafter
  refine ⟨(choice 0).getD d, fun s pen haround hdecides => ?_⟩
  have hdecided : pen.decided s.rank = choice 0 := hdecides 0
  rw [Printer.delimiterFor]
  refine (run_bind pen pen rfl).trans ?_
  rw [hdecided, haround]
  cases choice 0 with
  | some e => rfl
  | none =>
    rw [hd]
    rfl

mutual

private theorem exists_render_inline : ∀ (t : Tree (Option Position)), (∀ u ∈ t.preorder, u.kind.isInline = true) →
    ∀ (atx : Bool) {around : Surroundings} (_ : around.after.Known) (choice : Nat → Option Delimiter),
      ∃ text, ∀ (s : Scene) (pen : Pen), pen.around = around → pen.atx = atx → pen.Decides s.rank choice →
        ∃ around' : Surroundings, around'.after.Known ∧
          (Printer.standard o).render s (.ofTree t) pen = .ok (text, { pen with around := around' })
  | .node note content children, h, atx, around, hafter, choice => by
    rw [Tree.forall_mem_preorder] at h
    obtain ⟨hkind, hbelow⟩ := h
    have hinner := steady_renderInlines children (Tree.forall_mem_preorderList.2 hbelow) atx
    have hchar (c : Char) : (Opening.char c).Known := ⟨isWordChar c, rfl⟩
    have hemphasis {width : Nat} (hwidth : content.width? = some width) : ∃ text, ∀ (s : Scene) (pen : Pen),
        pen.around = around → pen.atx = atx → pen.Decides s.rank choice → ∃ around' : Surroundings,
          around'.after.Known ∧ (Printer.standard o).render s (.ofTree (.node note content children)) pen =
            .ok (text, { pen with around := around' }) := by
      obtain ⟨d, hd⟩ := exists_delimiterFor (preferred o content) hafter choice
      obtain ⟨x, hx⟩ := hinner (fun k => choice (1 + k)) (some d) (some d.char) (hchar d.char) true none
      refine ⟨List.replicate width d.char ++ (x ++ List.replicate width d.char), fun s pen haround hatx hdecides => ?_⟩
      obtain ⟨around', hafter', hrun⟩ := hx (s.past 1) pen (by rwa [haround]) hatx (hdecides.past 1)
      exact ⟨around', hafter', run_emphasis o hwidth (hd s pen haround hdecides) hrun⟩
    cases content with
    | text value =>
      obtain ⟨x, hx⟩ : ∃ x, textText around.atLineStart atx (around.next == some .link) (.text value) = .ok x :=
        ⟨_, rfl⟩
      refine ⟨x, fun s pen haround hatx _ => ⟨around, hafter, ?_⟩⟩
      subst haround hatx
      exact run_text o hx
    | emphasis => exact hemphasis rfl
    | strong => exact hemphasis rfl
    | inlineCode value =>
      refine ⟨codeSpanText value.toList, fun s pen haround _ _ => ⟨around, hafter, ?_⟩⟩
      subst haround
      exact run_inlineCode o value
    | link destination title =>
      obtain ⟨tail, htail⟩ := linkTail_fields destination title
      obtain ⟨x, hx⟩ := hinner choice none (some '[') (hchar ']') true none
      refine ⟨'[' :: x ++ ']' :: tail, fun s pen haround hatx hdecides => ?_⟩
      obtain ⟨around', hafter', hrun⟩ := hx s pen (by rwa [haround]) hatx hdecides
      exact ⟨around', hafter', run_link o hrun htail⟩
    | image destination alt title =>
      obtain ⟨x, hx⟩ := imageText_fields alt destination title
      refine ⟨x, fun s pen haround _ _ => ⟨around, hafter, ?_⟩⟩
      subst haround
      exact run_image o hx
    | lineBreak =>
      refine ⟨if atx then [' '] else ['\\', '\n'], fun s pen haround hatx _ => ⟨around, hafter, ?_⟩⟩
      subst haround hatx
      exact run_lineBreak o
    | _ => cases hkind

/-- Rows of inline nodes are printed alike in all scenes. -/
private theorem steady_renderInlines : ∀ (ts : List (Tree (Option Position))),
    (∀ u ∈ Tree.preorderList ts, u.kind.isInline = true) → ∀ (atx : Bool) (choice : Nat → Option Delimiter)
    (outer : Option Delimiter) (before : Option Char) {after : Opening} (_ : after.Known) (first : Bool)
    (touching : Option Char), Steady atx choice fun s =>
      (Printer.standard o).renderInlines s outer before after first (Draft.ofTrees ts) touching
  | [], _, atx, choice, outer, before, after, hafter, first, touching => by
    refine ⟨[], fun s pen hknown _ _ => ⟨pen.around, hknown, ?_⟩⟩
    dsimp only
    rw [Draft.ofTrees, Printer.renderInlines]
    rfl
  | t :: ts, h, atx, choice, outer, before, after, hafter, first, touching => by
    obtain ⟨ht, hts⟩ := List.forall_mem_append.1 h
    obtain ⟨opening, hfollow, hopening⟩ := follow_ofTrees hafter ts
    let edge := if first || (Draft.ofTrees ts).isEmpty then outer.map Delimiter.char else none
    let around : Surroundings := ⟨before, opening, edge.toList ++ touching.toList, ts.head?.map Tree.kind⟩
    have hknown : around.after.Known := hopening
    obtain ⟨x, hx⟩ := exists_render_inline t ht atx hknown choice
    let count := emphasisCount (.ofTree t)
    obtain ⟨y, hy⟩ := steady_renderInlines ts hts atx (fun k => choice (count + k)) outer (x.getLast?.or before) hafter
      false (if (Draft.ofTree t).kind?.any isEmphasis then x.head? else none)
    refine ⟨x ++ y, fun s pen _ hatx hdecides => ?_⟩
    obtain ⟨around₁, hafter₁, hrun⟩ := hx s { pen with around } rfl hatx hdecides
    obtain ⟨around₂, hafter₂, hrun'⟩ := hy (s.past count) { pen with around := around₁ } hafter₁ hatx
      (hdecides.past count)
    refine ⟨around₂, hafter₂, ?_⟩
    dsimp only
    rw [Draft.ofTrees, Printer.renderInlines, hfollow]
    refine (run_bind _ pen rfl).trans ((run_bind () _ rfl).trans ((run_bind x _ hrun).trans ?_))
    exact run_bind y _ hrun'

end

/-! ### The choice of delimiters -/

private theorem decide_add (rank : Nat) (ids : List (Option Nat)) (row : List Delimiter) (k : Nat) :
    decide rank ids row (rank + k) = decide 0 ids row k := by
  unfold decide
  rw [if_neg (by omega), if_neg (Nat.not_lt_zero k), Nat.add_sub_cancel_left, Nat.sub_zero]

section

variable {attempt : Scene → Printing (Except Fault) (List Char)} {atx : Bool}
  (hattempt : ∀ choice, Steady atx choice attempt)
include hattempt

/-- Delimiters are tried alike in all scenes. -/
private theorem exists_firstIntact (expected : List Draft) (ids : List (Option Nat)) :
    ∀ rows : List (List Delimiter), ∃ found, ∀ (s : Scene) (pen : Pen), pen.around.after.Known → pen.atx = atx →
      pen.decided = (fun _ => none) → ∃ around : Surroundings, around.after.Known ∧
        Printer.firstIntact expected (attempt s) (rows.map (decide s.rank ids)) pen = .ok (found, { pen with around })
  | [] => ⟨none, fun _ pen hafter _ _ => ⟨pen.around, hafter, rfl⟩⟩
  | row :: rows => by
    obtain ⟨text, htext⟩ := hattempt (decide 0 ids row)
    obtain ⟨found, hfound⟩ := exists_firstIntact expected ids rows
    refine ⟨if isIntact atx expected text then some text else found, fun s pen hafter hatx hdecided => ?_⟩
    obtain ⟨around, hafter', hrun⟩ :=
      htext s { pen with decided := decide s.rank ids row } hafter hatx fun k => decide_add s.rank ids row k
    have hpen : { pen with around, decided := fun _ => none } = { pen with around } := by rw [← hdecided]
    have hstep : Printer.firstIntact expected (attempt s) ((row :: rows).map (decide s.rank ids)) pen =
        (if isIntact atx expected text then pure (some text)
        else Printer.firstIntact expected (attempt s) (rows.map (decide s.rank ids)) : Printing (Except Fault) _)
          { pen with around } := by
      rw [List.map_cons, Printer.firstIntact]
      refine (run_bind () _ rfl).trans ((run_bind text _ hrun).trans ((run_bind () _ rfl).trans ?_))
      show (get >>= _ : Printing (Except Fault) _) { pen with around, decided := fun _ => none } = _
      rw [hpen]
      refine (run_bind _ _ rfl).trans ?_
      dsimp only
      rw [hatx]
    split at hstep
    · rename_i hintact
      rw [if_pos hintact]
      exact ⟨around, hafter', hstep⟩
    · rename_i hintact
      obtain ⟨around', hafter'', hrun'⟩ := hfound s { pen with around } hafter' hatx hdecided
      rw [if_neg hintact]
      exact ⟨around', hafter'', hstep.trans hrun'⟩

/-- Inline content settles on the same text in all scenes. -/
private theorem exists_settle (ts : List (Tree (Option Position))) :
    ∃ text, ∀ (s : Scene) (pen : Pen), pen.around.after.Known → pen.atx = atx → pen.decided = (fun _ => none) →
      ∃ around : Surroundings, around.after.Known ∧
        (Printer.standard o).settle s (Draft.ofTrees ts) (attempt s) pen = .ok (text, { pen with around }) := by
  obtain ⟨text, htext⟩ := hattempt fun _ => none
  obtain ⟨ids, hids⟩ := emphasisIdsList_ofTrees ts
  let expected := phrase atx (Draft.ofTrees ts)
  obtain ⟨found, hfound⟩ := exists_firstIntact hattempt expected ids (delimiterRows ids.length)
  let done := ids.isEmpty || !(Printer.standard o).hasStandardInline || isIntact atx expected text
  refine ⟨if done || searchLimit < ids.length then text else found.getD text, fun s pen hafter hatx hdecided => ?_⟩
  obtain ⟨around, hafter', hrun⟩ := htext s pen hafter hatx fun k => by rw [hdecided]
  rw [Printer.settle, hids]
  by_cases hdone : done = true
  · refine ⟨around, hafter', ?_⟩
    rw [hdone, Bool.true_or, if_pos rfl]
    refine (run_bind text _ hrun).trans ((run_bind ids _ rfl).trans ((run_bind _ _ rfl).trans ?_))
    dsimp only
    rw [hatx, if_pos hdone]
    rfl
  by_cases hlimit : searchLimit < ids.length
  · refine ⟨around, hafter', ?_⟩
    rw [decide_eq_true hlimit, Bool.or_true, if_pos rfl]
    refine (run_bind text _ hrun).trans ((run_bind ids _ rfl).trans ((run_bind _ _ rfl).trans ?_))
    dsimp only
    rw [hatx, if_neg hdone, if_pos hlimit]
    rfl
  · obtain ⟨around', hafter'', hrun'⟩ := hfound s { pen with around } hafter' hatx hdecided
    refine ⟨around', hafter'', ?_⟩
    rw [decide_eq_false hlimit, Bool.or_false, if_neg hdone]
    refine (run_bind text _ hrun).trans ((run_bind ids _ rfl).trans ((run_bind _ _ rfl).trans ?_))
    have hexpected : phrase pen.atx (Draft.ofTrees ts) = expected := by rw [hatx]
    dsimp only
    rw [if_neg (by rw [hatx]; exact hdone), if_neg hlimit, hexpected]
    refine (run_bind found _ hrun').trans ?_
    cases found with
    | none => rfl
    | some other => rfl

end

/-! ### Texts -/

/-- Trees with nothing said of their places. -/
abbrev unplaced (ts : List (Tree Unit)) : List (Tree (Option Position)) :=
  Tree.mapList (fun _ => none) ts

/-- The text that inline content is printed as, in a marked heading or not. -/
def inlineText (atx : Bool) (ts : List (Tree Unit)) : List Char :=
  match inlineContent o {} (unplaced ts) { atx } with
  | .ok (text, _) => text
  | .error _ => []

/-- Inline content is printed as its text wherever no delimiters are decided on. -/
theorem inlineContent_eq {ts : List (Tree Unit)} (h : ∀ u ∈ Tree.preorderList (unplaced ts), u.kind.isInline = true)
    (s : Scene) (pen : Pen) (hafter : pen.around.after.Known) (hdecided : pen.decided = fun _ => none) :
    ∃ around : Surroundings, around.after.Known ∧
      inlineContent o s (unplaced ts) pen = .ok (inlineText o pen.atx ts, { pen with around }) := by
  have hsteady (choice : Nat → Option Delimiter) : Steady pen.atx choice fun s =>
      (Printer.standard o).renderInlines s none none .nothing true (Draft.ofTrees (unplaced ts)) none :=
    steady_renderInlines o (unplaced ts) h pen.atx choice none none ⟨false, rfl⟩ true none
  obtain ⟨text, htext⟩ := exists_settle o hsteady (unplaced ts)
  obtain ⟨around, -, hrun⟩ := htext {} { atx := pen.atx } ⟨false, rfl⟩ rfl rfl
  have hinline : inlineText o pen.atx ts = text := by
    rw [inlineText, inlineContent, hrun]
  rw [hinline]
  exact htext s pen hafter rfl hdecided

end MarkdownTree.Print
