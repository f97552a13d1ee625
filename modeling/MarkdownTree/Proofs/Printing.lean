import MarkdownTree.Print.Printer
import MarkdownTree.Proofs.Tree

/-!
# Printing succeeds

A printer can fail, but only where fields have values of other types than their kinds ask for.  The fields of a tree
have the right ones, so printing a tree never fails (`exists_printTree`).  On the way every step takes a pen on which
the surroundings are known to another such pen (`runs_render`).  What is printed depends on the structure of the tree
only (`printTree_congr`).
-/

namespace MarkdownTree.Print

/-- It can be told whether something begins with a word. -/
def Opening.Known (o : Opening) : Prop :=
  ∃ b, o.isWord = .ok b

/-- Printing that succeeds with every pen on which the surroundings are known, and leaves them known. -/
def Runs {α : Type} (x : Printing (Except Fault) α) : Prop :=
  ∀ pen : Pen, pen.around.after.Known → ∃ a pen', x pen = .ok (a, pen') ∧ pen'.around.after.Known

section

variable {α β : Type}

private theorem runs_pure (a : α) : Runs (pure a) :=
  fun pen hpen => ⟨a, pen, rfl, hpen⟩

/-- One step after the other. -/
private theorem runs_bind {x : Printing (Except Fault) α} {f : α → Printing (Except Fault) β} (hx : Runs x)
    (hf : ∀ a, Runs (f a)) : Runs (x >>= f) := by
  intro pen hpen
  obtain ⟨a, pen', hrun, hpen'⟩ := hx pen hpen
  obtain ⟨b, pen'', hrun', hpen''⟩ := hf a pen' hpen'
  refine ⟨b, pen'', ?_, hpen''⟩
  show (x pen >>= fun p => f p.1 p.2) = _
  rw [hrun]
  exact hrun'

/-- A step that depends on the pen. -/
private theorem runs_get {f : Pen → Printing (Except Fault) α}
    (hf : ∀ pen : Pen, pen.around.after.Known → Runs (f pen)) :
    Runs (get >>= f) :=
  fun pen hpen => hf pen hpen pen hpen

private theorem runs_change {f : Pen → Pen} (hf : ∀ pen, pen.around.after.Known → (f pen).around.after.Known) :
    Runs (Printer.change f) :=
  fun pen hpen => ⟨(), f pen, rfl, hf pen hpen⟩

private theorem runs_lift {x : Except Fault α} (hx : ∃ a, x = .ok a) : Runs (Printer.lift x) := by
  obtain ⟨a, rfl⟩ := hx
  exact fun pen hpen => ⟨a, pen, rfl, hpen⟩

end

/-! ### Drafts of trees -/

private theorem lookup_fields_children (c : Content) : c.fields.lookup "children" = none := by
  cases c <;> rfl

theorem stray?_fields (k : Kind) (c : Content) : Draft.stray? k c.fields = none := by
  rw [Draft.stray?, lookup_fields_children, ite_self]

theorem checkChildren_fields (k : Kind) (c : Content) : Draft.checkChildren k c.fields = .ok () := by
  simp only [Draft.checkChildren, stray?_fields]

private theorem checkBelow_fields (k : Kind) (c : Content) : Printer.checkBelow k c.fields = .ok () := by
  simp only [Printer.checkBelow, stray?_fields]

mutual

private theorem emphasisIds_ofTree : ∀ t : Tree (Option Position), ∃ ids, emphasisIds (.ofTree t) = .ok ids
  | .node note content children => by
    obtain ⟨ids, hids⟩ := emphasisIdsList_ofTrees children
    rw [Draft.ofTree, emphasisIds, checkChildren_fields, hids]
    exact ⟨_, rfl⟩

theorem emphasisIdsList_ofTrees : ∀ ts : List (Tree (Option Position)),
    ∃ ids, emphasisIdsList (Draft.ofTrees ts) = .ok ids
  | [] => ⟨[], rfl⟩
  | t :: ts => by
    obtain ⟨ids, hids⟩ := emphasisIds_ofTree t
    obtain ⟨more, hmore⟩ := emphasisIdsList_ofTrees ts
    rw [Draft.ofTrees, emphasisIdsList, hids, hmore]
    exact ⟨_, rfl⟩

end

mutual

private theorem breaksLine_ofTree : ∀ t : Tree (Option Position), ∃ b, breaksLine (.ofTree t) = .ok b
  | .node note content children => by
    obtain ⟨b, hb⟩ := breaksLineList_ofTrees children
    have hbelow : (Draft.checkChildren content.kind content.fields >>= fun _ =>
        breaksLineList (Draft.ofTrees children)) = .ok b := by
      rw [checkChildren_fields]
      exact hb
    rw [Draft.ofTree]
    cases content with
    | text value =>
      show ∃ d, (if value.toList.contains '\n' then _ else _ : Except Fault Bool) = .ok d
      split
      · exact ⟨true, rfl⟩
      · exact ⟨b, hbelow⟩
    | lineBreak => exact ⟨true, rfl⟩
    | _ => exact ⟨b, hbelow⟩

private theorem breaksLineList_ofTrees : ∀ ts : List (Tree (Option Position)),
    ∃ b, breaksLineList (Draft.ofTrees ts) = .ok b
  | [] => ⟨false, rfl⟩
  | t :: ts => by
    obtain ⟨b, hb⟩ := breaksLine_ofTree t
    obtain ⟨d, hd⟩ := breaksLineList_ofTrees ts
    rw [Draft.ofTrees, breaksLineList, hb, hd]
    cases b
    · exact ⟨d, rfl⟩
    · exact ⟨true, rfl⟩

end

theorem openingOf_ofTree (t : Tree (Option Position)) : ∃ o : Opening, openingOf (.ofTree t) = .ok o ∧ o.Known := by
  obtain ⟨note, content, children⟩ := t
  cases content with
  | text value =>
    refine ⟨_, rfl, ?_⟩
    cases value.toList with
    | nil => exact ⟨false, rfl⟩
    | cons c cs => exact ⟨isWordChar c, rfl⟩
  | _ => exact ⟨.nothing, rfl, false, rfl⟩

/-- What follows a node can be told when it can be told what follows its siblings. -/
theorem follow_ofTrees {after : Opening} (hafter : after.Known) (ts : List (Tree (Option Position))) :
    ∃ o, follow after (Draft.ofTrees ts) = .ok (o, ts.head?.map Tree.kind) ∧ o.Known := by
  cases ts with
  | nil => exact ⟨after, rfl, hafter⟩
  | cons t ts =>
    obtain ⟨o, ho, hknown⟩ := openingOf_ofTree t
    obtain ⟨note, content, children⟩ := t
    refine ⟨o, ?_, hknown⟩
    rw [Draft.ofTree] at ho
    rw [Draft.ofTrees, Draft.ofTree, follow, ho]
    · rfl
    · intro v h
      cases h

theorem chooseDelimiter_known (preferred : Delimiter) {around : Surroundings} (h : around.after.Known) :
    ∃ d, chooseDelimiter preferred around = .ok d := by
  obtain ⟨word, hword⟩ := h
  unfold chooseDelimiter
  -- Only the look at what follows may fail, not the choice.
  rw [hword]
  split <;> dsimp only [bind, Except.bind, pure, Except.pure] <;> split <;> exact ⟨_, rfl⟩

/-! ### Texts of fields -/

private theorem isUnderlined_heading (o : PrintOptions) (frame : Option Frame) (depth : Int)
    (ts : List (Tree (Option Position))) :
    ∃ b, Printer.isUnderlined o frame (.int depth) (Draft.ofTrees ts) = .ok b := by
  obtain ⟨multiline, hmultiline⟩ := breaksLineList_ofTrees ts
  rw [Printer.isUnderlined, hmultiline]
  exact ⟨_, rfl⟩

theorem infoValue_fields (lang details : Option String) :
    ∃ info, infoValue (.ofText? lang) (.ofText? details) = .text info := by
  have hlang : ∃ first, (if (Value.ofText? lang).truthy then .ofText? lang else .text "") = Value.text first := by
    cases lang with
    | none => exact ⟨"", rfl⟩
    | some first =>
      split
      · exact ⟨first, rfl⟩
      · exact ⟨"", rfl⟩
  obtain ⟨first, hfirst⟩ := hlang
  simp only [infoValue, hfirst]
  cases details with
  | none => exact ⟨first, rfl⟩
  | some more =>
    split
    · exact ⟨first, rfl⟩
    split
    · exact ⟨_, rfl⟩
    · exact ⟨more, rfl⟩

theorem codeBlockText_fields (fence : FenceMark) (lang details : Option String) (value : String) :
    ∃ cs, codeBlockText fence (.ofText? lang) (.ofText? details) (.text value) = .ok cs := by
  obtain ⟨info, hinfo⟩ := infoValue_fields lang details
  rw [codeBlockText, hinfo]
  cases fence <;> exact ⟨_, rfl⟩

theorem linkTail_fields (destination : String) (title : Option String) :
    ∃ cs, linkTail (.text destination) (.ofText? title) = .ok cs := by
  cases title <;> exact ⟨_, rfl⟩

theorem imageText_fields (alt destination : String) (title : Option String) :
    ∃ cs, imageText (.text alt) (.text destination) (.ofText? title) = .ok cs := by
  obtain ⟨cs, hcs⟩ := linkTail_fields destination title
  rw [imageText, hcs]
  exact ⟨_, rfl⟩

theorem itemMarker_fields (ordered : Bool) (symbol : Char) (start : Option Int) (index : Nat) :
    ∃ cs, itemMarker ordered symbol ((start.map Value.int).getD .null) index = .ok cs := by
  cases ordered
  · exact ⟨_, rfl⟩
  · cases start <;> exact ⟨_, rfl⟩

/-! ### Steps -/

section

variable (o : PrintOptions)

private theorem runs_delimiterFor (s : Scene) (preferred : Delimiter) :
    Runs (Printer.delimiterFor s preferred : Printing (Except Fault) Delimiter) := by
  rw [Printer.delimiterFor]
  refine runs_get fun pen hpen => ?_
  split
  · exact runs_pure _
  · exact runs_lift (chooseDelimiter_known preferred hpen)

private theorem runs_firstIntact (expected : List Draft) {attempt : Printing (Except Fault) (List Char)}
    (hattempt : Runs attempt) : ∀ rows, Runs (Printer.firstIntact expected attempt rows)
  | [] => runs_pure none
  | decided :: rows => by
    rw [Printer.firstIntact]
    refine runs_bind (runs_change fun _ hpen => hpen) fun _ => runs_bind hattempt fun text => ?_
    refine runs_bind (runs_change fun _ hpen => hpen) fun _ => runs_get fun pen _ => ?_
    split
    · exact runs_pure _
    · exact runs_firstIntact expected hattempt rows

private theorem runs_settle (s : Scene) (ts : List (Tree (Option Position)))
    {attempt : Printing (Except Fault) (List Char)}
    (hattempt : Runs attempt) : Runs ((Printer.standard o).settle s (Draft.ofTrees ts) attempt) := by
  rw [Printer.settle]
  refine runs_bind hattempt fun text => runs_bind (runs_lift (emphasisIdsList_ofTrees ts)) fun ids => ?_
  refine runs_get fun pen _ => ?_
  dsimp only
  split
  · exact runs_pure _
  split
  · exact runs_bind (runs_lift ⟨(), rfl⟩) fun _ => runs_pure _
  · refine runs_bind (runs_firstIntact _ hattempt _) fun other => ?_
    split
    · exact runs_pure _
    · exact runs_bind (runs_lift ⟨(), rfl⟩) fun _ => runs_pure _

theorem runs_enclosed {α : Type} {x : Printing (Except Fault) α} (hx : Runs x) : Runs (Printer.enclosed x) :=
  runs_bind (runs_change fun _ hpen => hpen) fun _ => runs_bind hx fun _ =>
    runs_bind (runs_change fun _ hpen => hpen) fun _ => runs_pure _

mutual

/-- Printing a tree succeeds with every pen on which the surroundings are known. -/
theorem runs_render : ∀ (t : Tree (Option Position)) (s : Scene), Runs ((Printer.standard o).render s (.ofTree t))
  | .node note content children, s => by
    have hinlines := runs_renderInlines children
    have hblocks := runs_renderBlocks children
    have hitems := runs_renderItems children
    have hnothing : Opening.nothing.Known := ⟨false, rfl⟩
    have hchar : ∀ c, (Opening.char c).Known := fun c => ⟨isWordChar c, rfl⟩
    have hcontent : Runs ((Printer.standard o).settle s (Draft.ofTrees children)
        ((Printer.standard o).renderInlines s none none .nothing true (Draft.ofTrees children))) :=
      runs_settle o s children (hinlines s none none hnothing true none)
    rw [Draft.ofTree, Printer.render]
    refine runs_bind (runs_lift ⟨(), checkBelow_fields _ _⟩) fun _ => ?_
    cases content with
    | root => exact runs_bind (runs_enclosed (hblocks s _)) fun _ => runs_pure _
    | frontMatter value => exact runs_pure _
    | heading depth =>
      refine runs_bind (runs_lift (isUnderlined_heading o _ depth children)) fun _ => ?_
      -- What is left to do once the heading has, or has not, been printed to be underlined.
      extract_lets finish
      have hfinish : ∀ cs, Runs (finish cs) := by
        intro cs
        dsimp only [finish]
        split
        · refine runs_bind (runs_change fun _ hpen => hpen) fun _ => runs_bind hcontent fun _ => ?_
          refine runs_bind (runs_change fun _ hpen => hpen) fun _ => runs_bind (runs_lift ⟨_, rfl⟩) fun _ => ?_
          exact runs_pure _
        · exact runs_pure _
      split
      · exact runs_bind hcontent hfinish
      · exact hfinish []
    | paragraph => exact hcontent
    | codeBlock value lang details => exact runs_lift (codeBlockText_fields o.fence lang details value)
    | blockQuote => exact runs_bind (runs_enclosed (hblocks s _)) fun _ => runs_pure _
    | list ordered start spread =>
      refine runs_get fun pen _ => ?_
      refine runs_bind (runs_change fun pen hpen => ?_) fun _ => ?_
      · rw [Pen.withSymbol]
        split <;> exact hpen
      · exact runs_bind (runs_enclosed (hitems s _ (itemMarker_fields ordered _ start) 0)) fun _ => runs_pure _
    | listItem spread checked => exact runs_bind (runs_enclosed (hblocks s _)) fun _ => runs_pure _
    | thematicBreak => exact runs_pure _
    | text value => exact runs_get fun pen _ => runs_lift ⟨_, rfl⟩
    | emphasis =>
      refine runs_bind (runs_delimiterFor s _) fun d => ?_
      exact runs_bind (hinlines (s.past 1) _ _ (hchar _) true none) fun _ => runs_pure _
    | strong =>
      refine runs_bind (runs_delimiterFor s _) fun d => ?_
      exact runs_bind (hinlines (s.past 1) _ _ (hchar _) true none) fun _ => runs_pure _
    | inlineCode value => exact runs_lift ⟨_, rfl⟩
    | link destination title =>
      refine runs_bind (hinlines s _ _ (hchar _) true none) fun _ => ?_
      exact runs_bind (runs_lift (linkTail_fields destination title)) fun _ => runs_pure _
    | image destination alt title => exact runs_lift (imageText_fields alt destination title)
    | lineBreak => exact runs_get fun _ _ => runs_pure _

theorem runs_renderBlocks : ∀ (ts : List (Tree (Option Position))) (s : Scene) (f : Frame),
    Runs ((Printer.standard o).renderBlocks s f (Draft.ofTrees ts))
  | [], s, f => by
    rw [Draft.ofTrees, Printer.renderBlocks]
    exact runs_pure _
  | t :: ts, s, f => by
    have ht := runs_render t
    have hts := runs_renderBlocks ts
    rw [Draft.ofTrees, Printer.renderBlocks]
    exact runs_bind (ht _) fun _ => runs_bind (hts _ _) fun _ => runs_pure _

theorem runs_renderItems : ∀ (ts : List (Tree (Option Position))) (s : Scene) (f : Frame)
    {marker : Nat → Except Fault (List Char)} (_ : ∀ k, ∃ cs, marker k = .ok cs) (index : Nat),
    Runs ((Printer.standard o).renderItems s f marker index (Draft.ofTrees ts))
  | [], s, f, marker, hmarker, index => by
    rw [Draft.ofTrees, Printer.renderItems]
    exact runs_pure _
  | t :: ts, s, f, marker, hmarker, index => by
    have ht := runs_render t
    have hts := runs_renderItems ts
    rw [Draft.ofTrees, Printer.renderItems]
    refine runs_bind (runs_lift (hmarker index)) fun _ => runs_bind (ht _) fun _ => ?_
    exact runs_bind (hts _ _ hmarker _) fun _ => runs_pure _

private theorem runs_renderInlines : ∀ (ts : List (Tree (Option Position))) (s : Scene) (outer : Option Delimiter)
    (before : Option Char) {after : Opening} (_ : after.Known) (first : Bool) (touching : Option Char),
    Runs ((Printer.standard o).renderInlines s outer before after first (Draft.ofTrees ts) touching)
  | [], s, outer, before, after, hafter, first, touching => by
    rw [Draft.ofTrees, Printer.renderInlines]
    exact runs_pure _
  | t :: ts, s, outer, before, after, hafter, first, touching => by
    have ht := runs_render t
    have hts := runs_renderInlines ts
    obtain ⟨opening, hfollow, hopening⟩ := follow_ofTrees hafter ts
    rw [Draft.ofTrees, Printer.renderInlines, hfollow]
    -- The node is printed with a pen whose surroundings are those of the node, whatever they were before.
    intro pen hpen
    have hrun : Runs (do
      let text ← (Printer.standard o).render s (Draft.ofTree t)
      let before := text.getLast?.or before
      let touching := if (Draft.ofTree t).kind?.any isEmphasis then text.head? else none
      let rest ← (Printer.standard o).renderInlines (s.past (emphasisCount (.ofTree t))) outer before after false
        (Draft.ofTrees ts) touching
      return text ++ rest) :=
      runs_bind (ht s) fun _ => runs_bind (hts _ _ _ hafter _ _) fun _ => runs_pure _
    exact hrun _ hopening

end

end

/-- Printing a tree succeeds, whatever the notes on it. -/
theorem exists_printTree {α : Type} (o : PrintOptions) (t : Tree α) : ∃ printed, printTree o t = .ok printed := by
  obtain ⟨text, pen, hrun, -⟩ := runs_render o (t.map fun _ => none) {} {} ⟨false, rfl⟩
  refine ⟨if text.isEmpty then [] else text ++ ['\n'], ?_⟩
  show (((Printer.standard o).render {} (.ofTree (t.map fun _ => none)) {} >>= fun p => pure p.1) >>= fun text =>
    pure (if text.isEmpty then [] else text ++ ['\n'])) = Except.ok _
  rw [hrun]
  rfl

/-- Trees of the same structure are printed alike. -/
theorem printTree_congr {α β : Type} (o : PrintOptions) {s : Tree α} {t : Tree β} (h : s.erase = t.erase) :
    printTree o s = printTree o t := by
  have hmap : ∀ {γ : Type} (u : Tree γ), (u.map fun _ => (none : Option Position)) = u.erase.map fun _ => none :=
    fun u => (Tree.map_map (fun _ => ()) (fun _ => none) u).symm
  rw [printTree, hmap s, h, ← hmap t, printTree]

end MarkdownTree.Print
