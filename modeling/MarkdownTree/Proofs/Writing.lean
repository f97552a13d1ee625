import MarkdownTree.Proofs.SpellingPrint

/-!
# Written inline content

`Writes` tells all texts that a printer may write for inline content, whatever delimiters it chooses.  The printer
writes one of them (`yields_renderInlines`), also when it has tried several (`yields_settle`), and the pen keeps the
marks of the lists that it was given.
-/

namespace MarkdownTree.Print

open Text

/-- Whether a line starts after a text. -/
def startsAfter (fresh : Bool) (text : List Char) : Bool :=
  (text.getLast?.map (· == '\n')).getD fresh

/-- The text is one that inline content may be written as, in a marked heading or not, at the start of a line or not. -/
inductive Writes {α : Type} (atx : Bool) : Bool → List (Tree α) → List Char → Prop
  | nil {fresh : Bool} : Writes atx fresh [] []
  | text {fresh : Bool} {note : α} {value : String} {children ts : List (Tree α)} {x y : List Char}
      (htext : textText fresh atx (ts.head?.map Tree.kind == some .link) (.text value) = .ok x)
      (hrest : Writes atx (startsAfter fresh x) ts y) : Writes atx fresh (.node note (.text value) children :: ts) (x ++ y)
  | emphasis {fresh : Bool} {note : α} {content : Content} {width : Nat} {children ts : List (Tree α)}
      {x y : List Char} (d : Delimiter) (hwidth : content.width? = some width) (hinner : Writes atx false children x)
      (hrest : Writes atx false ts y) :
      Writes atx fresh (.node note content children :: ts)
        (List.replicate width d.char ++ (x ++ (List.replicate width d.char ++ y)))
  | link {fresh : Bool} {note : α} {destination : String} {title : Option String} {children ts : List (Tree α)}
      {x y tail : List Char} (hinner : Writes atx false children x)
      (htail : linkTail (.text destination) (.ofText? title) = .ok tail) (hrest : Writes atx false ts y) :
      Writes atx fresh (.node note (.link destination title) children :: ts) ('[' :: (x ++ ']' :: (tail ++ y)))
  | inlineCode {fresh : Bool} {note : α} {value : String} {children ts : List (Tree α)} {y : List Char}
      (hrest : Writes atx false ts y) :
      Writes atx fresh (.node note (.inlineCode value) children :: ts) (codeSpanText value.toList ++ y)
  | image {fresh : Bool} {note : α} {destination alt : String} {title : Option String} {children ts : List (Tree α)}
      {x y : List Char} (himage : imageText (.text alt) (.text destination) (.ofText? title) = .ok x)
      (hrest : Writes atx false ts y) : Writes atx fresh (.node note (.image destination alt title) children :: ts) (x ++ y)
  | lineBreak {fresh : Bool} {note : α} {children ts : List (Tree α)} {y : List Char} (hrest : Writes atx (!atx) ts y) :
      Writes atx fresh (.node note .lineBreak children :: ts) ((if atx then [' '] else ['\\', '\n']) ++ y)

/-- What is written does not depend on notes. -/
theorem Writes.map {α β : Type} {atx fresh : Bool} {ts : List (Tree α)} {x : List Char} (h : Writes atx fresh ts x)
    (f : α → β) : Writes atx fresh (Tree.mapList f ts) x := by
  induction h with
  | nil => exact .nil
  | @text fresh note value children ts x y htext _ ih =>
    refine .text ?_ ih
    rwa [Tree.mapList_eq_map, List.head?_map, Option.map_map, show Tree.kind ∘ Tree.map f = Tree.kind from
      funext (Tree.kind_map f)]
  | emphasis d hwidth _ _ ihinner ih => exact .emphasis d hwidth ihinner ih
  | link _ htail _ ihinner ih => exact .link ihinner htail ih
  | inlineCode _ ih => exact .inlineCode ih
  | image himage _ ih => exact .image himage ih
  | lineBreak _ ih => exact .lineBreak ih

/-- Printing that succeeds where the surroundings are known, leaves them known, and leaves the rest of the pen as it was
but for the delimiters that are decided on. -/
def Yields {α : Type} (atx : Bool) (P : α → Prop) (x : Printing (Except Fault) α) : Prop :=
  ∀ pen : Pen, pen.around.after.Known → pen.atx = atx →
    ∃ a pen', x pen = .ok (a, pen') ∧ pen'.around.after.Known ∧ pen'.atx = atx ∧ pen'.symbols = pen.symbols ∧ P a

section

variable {α β : Type} {atx : Bool} {P : α → Prop} {Q : β → Prop}

theorem yields_pure {a : α} (ha : P a) : Yields atx P (pure a) :=
  fun pen hafter hatx => ⟨a, pen, rfl, hafter, hatx, rfl, ha⟩

theorem yields_bind {x : Printing (Except Fault) α} {f : α → Printing (Except Fault) β} (hx : Yields atx P x)
    (hf : ∀ a, P a → Yields atx Q (f a)) : Yields atx Q (x >>= f) := by
  intro pen hafter hatx
  obtain ⟨a, pen', hrun, hafter', hatx', hsymbols, ha⟩ := hx pen hafter hatx
  obtain ⟨b, pen'', hrun', hafter'', hatx'', hsymbols', hb⟩ := hf a ha pen' hafter' hatx'
  refine ⟨b, pen'', ?_, hafter'', hatx'', hsymbols'.trans hsymbols, hb⟩
  show (x pen >>= fun p => f p.1 p.2) = _
  rw [hrun]
  exact hrun'

private theorem yields_get {f : Pen → Printing (Except Fault) α}
    (hf : ∀ pen : Pen, pen.around.after.Known → pen.atx = atx → Yields atx P (f pen)) : Yields atx P (get >>= f) :=
  fun pen hafter hatx => hf pen hafter hatx pen hafter hatx

theorem yields_lift {x : Except Fault α} {a : α} (hx : x = .ok a) (ha : P a) : Yields atx P (Printer.lift x) := by
  subst hx
  exact fun pen hafter hatx => ⟨a, pen, rfl, hafter, hatx, rfl, ha⟩

private theorem yields_decide (decided : Nat → Option Delimiter) :
    Yields atx (fun _ => True) (Printer.change fun pen => { pen with decided } : Printing (Except Fault) Unit) :=
  fun pen hafter hatx => ⟨(), { pen with decided }, rfl, hafter, hatx, rfl, trivial⟩

end

variable (o : PrintOptions) {atx : Bool}

/-! ### The choice of delimiters -/

private theorem yields_firstIntact (expected : List Draft) {attempt : Printing (Except Fault) (List Char)}
    {P : List Char → Prop} (hattempt : Yields atx P attempt) :
    ∀ rows, Yields atx (fun found => ∀ text ∈ found, P text) (Printer.firstIntact expected attempt rows)
  | [] => yields_pure (by simp)
  | decided :: rows => by
    rw [Printer.firstIntact]
    refine yields_bind (yields_decide decided) fun _ _ => yields_bind hattempt fun text htext => ?_
    refine yields_bind (yields_decide _) fun _ _ => yields_get fun pen _ _ => ?_
    split
    · exact yields_pure (by simpa using htext)
    · exact yields_firstIntact expected hattempt rows

/-- What is true of every attempt is true of the text that the attempts settle on. -/
theorem yields_settle (s : Scene) (ts : List (Tree (Option Position))) {attempt : Printing (Except Fault) (List Char)}
    {P : List Char → Prop} (hattempt : Yields atx P attempt) :
    Yields atx P ((Printer.standard o).settle s (Draft.ofTrees ts) attempt) := by
  obtain ⟨ids, hids⟩ := emphasisIdsList_ofTrees ts
  rw [Printer.settle]
  refine yields_bind hattempt fun text htext => yields_bind (yields_lift (P := fun _ => True) hids trivial) fun ids _ => ?_
  refine yields_get fun pen _ _ => ?_
  dsimp only
  split
  · exact yields_pure htext
  split
  · exact yields_bind (yields_lift (P := fun _ => True) rfl trivial) fun _ _ => yields_pure htext
  · refine yields_bind (yields_firstIntact _ hattempt _) fun found hfound => ?_
    split
    · exact yields_pure (hfound _ rfl)
    · exact yields_bind (yields_lift (P := fun _ => True) rfl trivial) fun _ _ => yields_pure htext

/-! ### Inline content -/

private theorem startsAfter_or (before : Option Char) (text : List Char) :
    (text.getLast?.or before).all (· == '\n') = startsAfter (before.all (· == '\n')) text := by
  unfold startsAfter
  cases text.getLast? <;> rfl

theorem startsAfter_concat (fresh : Bool) (text : List Char) (c : Char) :
    startsAfter fresh (text ++ [c]) = (c == '\n') := by
  rw [startsAfter, List.getLast?_concat]
  rfl

private theorem char_ne_newline (d : Delimiter) : (d.char == '\n') = false := by
  cases d <;> rfl

theorem codeSpanText_eq_cons (value : List Char) : codeSpanText value = '\x60' :: (codeSpanText value).tail := by
  unfold codeSpanText
  dsimp only
  rw [List.replicate_succ]
  rfl

theorem startsAfter_codeSpanText (fresh : Bool) (value : List Char) :
    startsAfter fresh (codeSpanText value) = false := by
  unfold codeSpanText
  dsimp only
  rw [List.replicate_succ', ← List.append_assoc, startsAfter_concat]
  rfl

theorem startsAfter_lineBreak (fresh atx : Bool) :
    startsAfter fresh (if atx then [' '] else ['\\', '\n']) = !atx := by
  cases atx <;> rfl

theorem exists_of_linkTail {destination : String} {title : Option String} {tail : List Char}
    (h : linkTail (.text destination) (.ofText? title) = .ok tail) : ∃ init, tail = init ++ [')'] := by
  cases title <;> cases h <;> exact ⟨_, rfl⟩

theorem exists_of_imageText {alt destination : String} {title : Option String} {text : List Char}
    (h : imageText (.text alt) (.text destination) (.ofText? title) = .ok text) : ∃ init, text = init ++ [')'] := by
  obtain ⟨tail, htail⟩ := linkTail_fields destination title
  obtain ⟨init, rfl⟩ := exists_of_linkTail htail
  rw [imageText, htail] at h
  cases h
  exact ⟨'!' :: '[' :: escape false false alt.toList ++ ']' :: init, by simp⟩

mutual

/-- An inline node is written at the start of a line if a line feed, or nothing, stands before it. -/
theorem writes_render : ∀ (t : Tree (Option Position)), (∀ u ∈ t.preorder, u.kind.isInline = true) →
    ∀ (s : Scene) (pen : Pen), pen.around.after.Known →
      ∃ x pen', (Printer.standard o).render s (.ofTree t) pen = .ok (x, pen') ∧ pen'.around.after.Known ∧
        pen'.atx = pen.atx ∧ pen'.symbols = pen.symbols ∧
        ∀ {ts y}, pen.around.next = ts.head?.map Tree.kind → Writes pen.atx (startsAfter pen.around.atLineStart x) ts y →
          Writes pen.atx pen.around.atLineStart (t :: ts) (x ++ y)
  | .node note content children, h, s, pen, hafter => by
    rw [Tree.forall_mem_preorder] at h
    obtain ⟨hkind, hbelow⟩ := h
    have hinner := @yields_renderInlines children (Tree.forall_mem_preorderList.2 hbelow) pen.atx
    have hchar (c : Char) : (Opening.char c).Known := ⟨isWordChar c, rfl⟩
    rw [Draft.ofTree]
    have hemphasis {width : Nat} (hwidth : content.width? = some width) : ∃ x pen',
        (Printer.standard o).render s (.node content.kind content.fields (note.map .ofPosition) (Draft.ofTrees children)
          none) pen = .ok (x, pen') ∧ pen'.around.after.Known ∧ pen'.atx = pen.atx ∧ pen'.symbols = pen.symbols ∧
        ∀ {ts y}, pen.around.next = ts.head?.map Tree.kind →
          Writes pen.atx (startsAfter pen.around.atLineStart x) ts y →
          Writes pen.atx pen.around.atLineStart (.node note content children :: ts) (x ++ y) := by
      obtain ⟨d, hd, -⟩ := delimiterFor_ok s (preferred o content) hafter
      obtain ⟨x, pen', hrun, hafter', hatx, hsymbols, hx⟩ :=
        hinner (s.past 1) (some d) (some d.char) (hchar d.char) true none pen hafter rfl
      refine ⟨_, pen', run_emphasis o hwidth hd hrun, hafter', hatx, hsymbols, fun {ts y} _ hrest => ?_⟩
      obtain ⟨n, rfl⟩ := Nat.exists_eq_add_of_lt (Content.width_pos hwidth)
      rw [Nat.zero_add, List.replicate_succ', ← List.append_assoc, ← List.append_assoc, startsAfter_concat,
        char_ne_newline] at hrest
      rw [Option.all_some, char_ne_newline] at hx
      rw [List.append_assoc, List.append_assoc]
      exact .emphasis d hwidth hx hrest
    cases content with
    | text value =>
      refine ⟨_, pen, run_text o rfl, hafter, rfl, rfl, fun hnext hrest => .text ?_ hrest⟩
      rw [← hnext]
      rfl
    | emphasis => exact hemphasis rfl
    | strong => exact hemphasis rfl
    | inlineCode value =>
      refine ⟨_, pen, run_inlineCode o value, hafter, rfl, rfl, fun {ts y} _ hrest => .inlineCode ?_⟩
      rwa [startsAfter_codeSpanText] at hrest
    | link destination title =>
      obtain ⟨tail, htail⟩ := linkTail_fields destination title
      obtain ⟨x, pen', hrun, hafter', hatx, hsymbols, hx⟩ :=
        hinner s none (some '[') (hchar ']') true none pen hafter rfl
      refine ⟨_, pen', run_link o hrun htail, hafter', hatx, hsymbols, fun {ts y} _ hrest => ?_⟩
      obtain ⟨init, rfl⟩ := exists_of_linkTail htail
      have hlast : '[' :: x ++ ']' :: (init ++ [')']) = ('[' :: x ++ ']' :: init) ++ [')'] := by simp
      rw [hlast, startsAfter_concat] at hrest
      have hwrites : Writes pen.atx pen.around.atLineStart (.node note (.link destination title) children :: ts) _ :=
        .link hx htail hrest
      simpa using hwrites
    | image destination alt title =>
      obtain ⟨x, hx⟩ := imageText_fields alt destination title
      refine ⟨x, pen, run_image o hx, hafter, rfl, rfl, fun {ts y} _ hrest => .image hx ?_⟩
      obtain ⟨init, rfl⟩ := exists_of_imageText hx
      rwa [startsAfter_concat] at hrest
    | lineBreak =>
      refine ⟨_, pen, run_lineBreak o, hafter, rfl, rfl, fun {ts y} _ hrest => .lineBreak ?_⟩
      rwa [startsAfter_lineBreak] at hrest
    | _ => cases hkind

theorem yields_renderInlines : ∀ (ts : List (Tree (Option Position))),
    (∀ u ∈ Tree.preorderList ts, u.kind.isInline = true) → ∀ {atx : Bool} (s : Scene) (outer : Option Delimiter)
    (before : Option Char) {after : Opening} (_ : after.Known) (first : Bool) (touching : Option Char),
    Yields atx (Writes atx (before.all (· == '\n')) ts)
      ((Printer.standard o).renderInlines s outer before after first (Draft.ofTrees ts) touching)
  | [], _, atx, s, outer, before, after, hafter, first, touching => by
    rw [Draft.ofTrees, Printer.renderInlines]
    exact yields_pure .nil
  | t :: ts, h, atx, s, outer, before, after, hafter, first, touching => by
    obtain ⟨ht, hts⟩ := List.forall_mem_append.1 h
    obtain ⟨opening, hfollow, hopening⟩ := follow_ofTrees hafter ts
    have hrender := writes_render t ht
    have hrest := @yields_renderInlines ts hts atx
    rw [Draft.ofTrees, Printer.renderInlines, hfollow]
    intro pen _ hatx
    -- The node is printed with a pen whose surroundings are its own, whatever they were before.
    let edge := if first || (Draft.ofTrees ts).isEmpty then outer.map Delimiter.char else none
    obtain ⟨x, pen₁, hrun, hafter₁, hatx₁, hsymbols₁, hx⟩ :=
      hrender s { pen with around := ⟨before, opening, edge.toList ++ touching.toList, ts.head?.map Tree.kind⟩ } hopening
    obtain ⟨y, pen₂, hrun', hafter₂, hatx₂, hsymbols₂, hy⟩ :=
      hrest (s.past (emphasisCount (.ofTree t))) outer (x.getLast?.or before) hafter false
        (if (Draft.ofTree t).kind?.any isEmphasis then x.head? else none) pen₁ hafter₁ (hatx₁.trans hatx)
    refine ⟨x ++ y, pen₂, ?_, hafter₂, hatx₂, hsymbols₂.trans hsymbols₁, ?_⟩
    · refine (run_bind _ pen rfl).trans ((run_bind () _ rfl).trans ((run_bind x pen₁ hrun).trans ?_))
      exact run_bind y pen₂ hrun'
    · rw [startsAfter_or] at hy
      rw [← hatx] at hy ⊢
      exact hx rfl hy

end

/-! ### Inline content in containers -/

private theorem delimiterFor_congr {s s' : Scene} (hrank : s.rank = s'.rank) (preferred : Delimiter) :
    (Printer.delimiterFor s preferred : Printing (Except Fault) Delimiter) = Printer.delimiterFor s' preferred := by
  unfold Printer.delimiterFor
  rw [hrank]

mutual

/-- Inline content is printed alike in all containers. -/
private theorem render_congr :
    ∀ (t : Tree (Option Position)), (∀ u ∈ t.preorder, u.kind.isInline = true) → ∀ {s s' : Scene},
    s.rank = s'.rank → (Printer.standard o).render s (.ofTree t) = (Printer.standard o).render s' (.ofTree t)
  | .node note content children, h, s, s', hrank => by
    rw [Tree.forall_mem_preorder] at h
    obtain ⟨hkind, hbelow⟩ := h
    have hinner {s s' : Scene} (hrank : s.rank = s'.rank) :=
      renderInlines_congr children (Tree.forall_mem_preorderList.2 hbelow) hrank
    have hpast : (s.past 1).rank = (s'.past 1).rank := congrArg (· + 1) hrank
    rw [Draft.ofTree, Printer.render, Printer.render]
    cases content with
    | emphasis =>
      dsimp only [Content.kind]
      rw [delimiterFor_congr hrank]
      simp only [hinner hpast]
      rfl
    | strong =>
      dsimp only [Content.kind]
      rw [delimiterFor_congr hrank]
      simp only [hinner hpast]
      rfl
    | link destination title =>
      dsimp only [Content.kind]
      rw [hinner hrank]
      rfl
    | text | inlineCode | image | lineBreak => rfl
    | _ => cases hkind

theorem renderInlines_congr : ∀ (ts : List (Tree (Option Position))),
    (∀ u ∈ Tree.preorderList ts, u.kind.isInline = true) → ∀ {s s' : Scene}, s.rank = s'.rank →
    ∀ (outer : Option Delimiter) (before : Option Char) (after : Opening) (first : Bool) (touching : Option Char),
    (Printer.standard o).renderInlines s outer before after first (Draft.ofTrees ts) touching =
      (Printer.standard o).renderInlines s' outer before after first (Draft.ofTrees ts) touching
  | [], _, s, s', _, outer, before, after, first, touching => by
    rw [Draft.ofTrees, Printer.renderInlines, Printer.renderInlines]
  | t :: ts, h, s, s', hrank, outer, before, after, first, touching => by
    obtain ⟨ht, hts⟩ := List.forall_mem_append.1 h
    have hpast : (s.past (emphasisCount (.ofTree t))).rank = (s'.past (emphasisCount (.ofTree t))).rank :=
      congrArg (· + _) hrank
    have hrest := renderInlines_congr ts hts hpast
    rw [Draft.ofTrees, Printer.renderInlines, Printer.renderInlines, render_congr t ht hrank]
    simp only [hrest]

end

theorem settle_congr {s s' : Scene} (hrank : s.rank = s'.rank) (children : List Draft)
    (attempt : Printing (Except Fault) (List Char)) :
    (Printer.standard o).settle s children attempt = (Printer.standard o).settle s' children attempt := by
  unfold Printer.settle
  rw [hrank]

end MarkdownTree.Print
