import MarkdownTree.Processor
import MarkdownTree.Proofs.Printing

/-!
# Printing in a session

Writers of Markdown print in a session, where their remarks go to the log.  Beside that they print as the standard
printer does, which can only fail: they give the same text, or fail with the same fault, and touch nothing else of the
session (`mirrors_write`).
-/

namespace MarkdownTree

open Print

variable {σ α β : Type}

/-- How a stage ends that comes to something, or fails, and leaves the session with a log. -/
def Session.logged (s : Session σ) (log : List LogRecord) : Except Fault α → EStateM.Result Fault (Session σ) α
  | .ok a => .ok a { s with log }
  | .error fault => .error fault { s with log }

/-- A stage comes to what a computation comes to that can only fail, and changes nothing but the log. -/
def Mirrors (x : Stage σ α) (y : Except Fault α) : Prop :=
  ∀ s, ∃ log, x s = s.logged log y

private theorem mirrors_ok (a : α) : Mirrors (pure a : Stage σ α) (.ok a) :=
  fun s => ⟨s.log, rfl⟩

private theorem mirrors_liftM (y : Except Fault α) : Mirrors (liftM y : Stage σ α) y := by
  intro s
  refine ⟨s.log, ?_⟩
  cases y <;> rfl

private theorem mirrors_say (level : LogLevel) (logger : Logger) (text : String) :
    Mirrors (Stage.say level logger text : Stage σ Unit) (.ok ()) :=
  fun _ => ⟨_, rfl⟩

/-- One after the other. -/
private theorem mirrors_bind {x : Stage σ α} {y : Except Fault α} {f : α → Stage σ β} {g : α → Except Fault β}
    (hx : Mirrors x y) (hf : ∀ a, Mirrors (f a) (g a)) : Mirrors (x >>= f) (y >>= g) := by
  intro s
  obtain ⟨log, hlog⟩ := hx s
  cases y with
  | error fault => exact ⟨log, by show EStateM.bind x f s = _; rw [EStateM.bind, hlog]; rfl⟩
  | ok a =>
    obtain ⟨log', hlog'⟩ := hf a { s with log }
    refine ⟨log', ?_⟩
    show EStateM.bind x f s = _
    rw [EStateM.bind, hlog]
    exact hlog'

/-! ### With a pen -/

/-- Printing in a session that mirrors printing that can only fail, whatever the pen. -/
def Echoes (x : Printing (Stage σ) α) (y : Printing (Except Fault) α) : Prop :=
  ∀ pen, Mirrors (x pen) (y pen)

private theorem echoes_pure (a : α) : Echoes (pure a : Printing (Stage σ) α) (pure a) :=
  fun pen => mirrors_ok (a, pen)

private theorem echoes_bind {x : Printing (Stage σ) α} {y : Printing (Except Fault) α} {f : α → Printing (Stage σ) β}
    {g : α → Printing (Except Fault) β} (hx : Echoes x y) (hf : ∀ a, Echoes (f a) (g a)) :
    Echoes (x >>= f) (y >>= g) :=
  fun pen => mirrors_bind (hx pen) fun r => hf r.1 r.2

private theorem echoes_get {f : Pen → Printing (Stage σ) α} {g : Pen → Printing (Except Fault) α}
    (hf : ∀ pen, Echoes (f pen) (g pen)) : Echoes (get >>= f) (get >>= g) :=
  fun pen => hf pen pen

private theorem echoes_change (f : Pen → Pen) :
    Echoes (Printer.change f : Printing (Stage σ) Unit) (Printer.change f) :=
  fun pen => mirrors_ok ((), f pen)

private theorem echoes_lift (y : Except Fault α) : Echoes (Printer.lift y : Printing (Stage σ) α) (Printer.lift y) :=
  fun pen => mirrors_bind (mirrors_liftM y) fun a => mirrors_ok (a, pen)

private theorem echoes_enclosed {x : Printing (Stage σ) α} {y : Printing (Except Fault) α} (hx : Echoes x y) :
    Echoes (Printer.enclosed x) (Printer.enclosed y) :=
  echoes_bind (echoes_change _) fun _ => echoes_bind hx fun a =>
    echoes_bind (echoes_change _) fun _ => echoes_pure a

section

variable (settings : List Field)

/-- A remark of a writer goes to the log. -/
private theorem echoes_remark (remark : Remark) :
    Echoes (StateT.lift ((Writer.markdown settings : Writer σ).printer.remark remark))
      (StateT.lift ((Printer.standard (.ofFields settings)).remark remark)) :=
  fun pen => mirrors_bind (mirrors_say _ _ _) fun a => mirrors_ok (a, pen)

private theorem echoes_delimiterFor (s : Scene) (preferred : Delimiter) :
    Echoes (Printer.delimiterFor s preferred : Printing (Stage σ) Delimiter) (Printer.delimiterFor s preferred) := by
  rw [Printer.delimiterFor, Printer.delimiterFor]
  refine echoes_get fun pen => ?_
  split
  · exact echoes_pure _
  · exact echoes_lift _

private theorem echoes_firstIntact (expected : List Draft) {x : Printing (Stage σ) (List Char)}
    {y : Printing (Except Fault) (List Char)} (hx : Echoes x y) :
    ∀ rows, Echoes (Printer.firstIntact expected x rows) (Printer.firstIntact expected y rows)
  | [] => echoes_pure none
  | decided :: rows => by
    rw [Printer.firstIntact, Printer.firstIntact]
    refine echoes_bind (echoes_change _) fun _ => echoes_bind hx fun text => ?_
    refine echoes_bind (echoes_change _) fun _ => echoes_get fun pen => ?_
    split
    · exact echoes_pure _
    · exact echoes_firstIntact expected hx rows

private theorem echoes_settle (s : Scene) (children : List Draft) {x : Printing (Stage σ) (List Char)}
    {y : Printing (Except Fault) (List Char)} (hx : Echoes x y) :
    Echoes ((Writer.markdown settings : Writer σ).printer.settle s children x)
      ((Printer.standard (.ofFields settings)).settle s children y) := by
  rw [Printer.settle, Printer.settle]
  refine echoes_bind hx fun text => echoes_bind (echoes_lift _) fun ids => echoes_get fun pen => ?_
  have hinline : (Writer.markdown settings : Writer σ).printer.hasStandardInline =
      (Printer.standard (.ofFields settings)).hasStandardInline := rfl
  rw [hinline]
  dsimp only
  split
  · exact echoes_pure _
  split
  · exact echoes_bind (echoes_remark settings _) fun _ => echoes_pure _
  · refine echoes_bind (echoes_firstIntact _ hx _) fun other => ?_
    cases other with
    | some other => exact echoes_pure _
    | none => exact echoes_bind (echoes_remark settings _) fun _ => echoes_pure _

mutual

private theorem echoes_render : ∀ (t : Draft) (s : Scene),
    Echoes ((Writer.markdown settings : Writer σ).printer.render s t)
      ((Printer.standard (.ofFields settings)).render s t)
  | .other _, s => by
    rw [Printer.render, Printer.render]
    exact echoes_lift _
  | .node kind fields place children id, s => by
    have hinlines := echoes_renderInlines children
    have hblocks := echoes_renderBlocks children
    have hitems := echoes_renderItems children
    have hcontent := echoes_settle settings s children (hinlines s none none .nothing true none)
    rw [Printer.render, Printer.render]
    refine echoes_bind (echoes_lift _) fun _ => ?_
    cases kind with
    | root | blockQuote | listItem => exact echoes_bind (echoes_enclosed (hblocks s _)) fun _ => echoes_pure _
    | heading =>
      refine echoes_bind (echoes_lift _) fun underlined => ?_
      -- What is left to do once the heading has, or has not, been printed to be underlined.
      extract_lets finish finish'
      have hfinish : ∀ content, Echoes (finish content) (finish' content) := by
        intro content
        dsimp only [finish, finish']
        split
        · refine echoes_bind (echoes_change _) fun _ => echoes_bind hcontent fun _ => ?_
          exact echoes_bind (echoes_change _) fun _ => echoes_bind (echoes_lift _) fun _ => echoes_pure _
        · exact echoes_pure _
      cases underlined with
      | true => exact echoes_bind hcontent hfinish
      | false => exact hfinish []
    | paragraph => exact hcontent
    | list =>
      refine echoes_get fun pen => echoes_bind (echoes_change _) fun _ => ?_
      exact echoes_bind (echoes_enclosed (hitems s _ _ 0)) fun _ => echoes_pure _
    | emphasis | strong =>
      refine echoes_bind (echoes_delimiterFor s _) fun d => ?_
      exact echoes_bind (hinlines (s.past 1) _ _ _ true none) fun _ => echoes_pure _
    | link => exact echoes_bind (hinlines s _ _ _ true none) fun _ => echoes_bind (echoes_lift _) fun _ => echoes_pure _
    | text => exact echoes_get fun pen => echoes_lift _
    | codeBlock | inlineCode | image => exact echoes_lift _
    | frontMatter | thematicBreak => exact echoes_pure _
    | lineBreak => exact echoes_get fun _ => echoes_pure _

private theorem echoes_renderBlocks : ∀ (ts : List Draft) (s : Scene) (f : Frame),
    Echoes ((Writer.markdown settings : Writer σ).printer.renderBlocks s f ts)
      ((Printer.standard (.ofFields settings)).renderBlocks s f ts)
  | [], s, f => by
    rw [Printer.renderBlocks, Printer.renderBlocks]
    exact echoes_pure _
  | t :: ts, s, f => by
    have ht := echoes_render t
    have hts := echoes_renderBlocks ts
    rw [Printer.renderBlocks, Printer.renderBlocks]
    exact echoes_bind (ht _) fun _ => echoes_bind (hts _ _) fun _ => echoes_pure _

private theorem echoes_renderItems :
    ∀ (ts : List Draft) (s : Scene) (f : Frame) (marker : Nat → Except Fault (List Char))
    (index : Nat), Echoes ((Writer.markdown settings : Writer σ).printer.renderItems s f marker index ts)
      ((Printer.standard (.ofFields settings)).renderItems s f marker index ts)
  | [], s, f, marker, index => by
    rw [Printer.renderItems, Printer.renderItems]
    exact echoes_pure _
  | t :: ts, s, f, marker, index => by
    have ht := echoes_render t
    have hts := echoes_renderItems ts
    rw [Printer.renderItems, Printer.renderItems]
    refine echoes_bind (echoes_lift _) fun _ => echoes_bind (ht _) fun _ => ?_
    exact echoes_bind (hts _ _ _ _) fun _ => echoes_pure _

private theorem echoes_renderInlines : ∀ (ts : List Draft) (s : Scene) (outer : Option Delimiter) (before : Option Char)
    (after : Opening) (first : Bool) (touching : Option Char),
    Echoes ((Writer.markdown settings : Writer σ).printer.renderInlines s outer before after first ts touching)
      ((Printer.standard (.ofFields settings)).renderInlines s outer before after first ts touching)
  | [], s, outer, before, after, first, touching => by
    rw [Printer.renderInlines, Printer.renderInlines]
    exact echoes_pure _
  | t :: ts, s, outer, before, after, first, touching => by
    have ht := echoes_render t
    have hts := echoes_renderInlines ts
    rw [Printer.renderInlines, Printer.renderInlines]
    refine echoes_bind (echoes_lift _) fun _ => echoes_bind (echoes_change _) fun _ => echoes_bind (ht _) fun _ => ?_
    exact echoes_bind (hts _ _ _ _ _ _) fun _ => echoes_pure _

end

end

/-- The printer of a writer of Markdown prints as the standard printer. -/
private theorem mirrors_print (settings : List Field) (t : Draft) :
    Mirrors ((Writer.markdown settings : Writer σ).printer.print t)
      ((Printer.standard (.ofFields settings)).print t) := by
  rw [Printer.print, Printer.print]
  refine mirrors_bind ?_ fun text => mirrors_ok _
  exact mirrors_bind (echoes_render settings t {} {}) fun r => mirrors_ok r.1

/-- The text that is written for the tree below a node, or the fault with which writing it fails. -/
def written (settings : List Field) (g : Graph) (id : NodeId) : Except Fault String := do
  if let some kind := g.kind? id then
    if kind ≠ .root then throw (.print (.notRoot kind))
  let text ← (Printer.standard (.ofFields settings)).print (g.unfold id)
  return String.ofList text

/-- Writing Markdown comes to the text that is written for a tree, and changes nothing but the log. -/
theorem mirrors_write (settings : List Field) (id : NodeId) (s : Session σ) :
    ∃ log, (Writer.markdown settings : Writer σ).write id s = s.logged log (written settings s.graph id) := by
  have hrest : Mirrors (do
      let text ← (Writer.markdown settings : Writer σ).printer.print (s.graph.unfold id)
      Writer.say ("Printed " ++ toString (text.length - 1) ++ " characters")
      return String.ofList text : Stage σ String) (do
      let text ← (Printer.standard (.ofFields settings)).print (s.graph.unfold id)
      return String.ofList text) :=
    mirrors_bind (mirrors_print settings _) fun text => mirrors_bind (mirrors_say _ _ _) fun _ => mirrors_ok _
  have hgraph : ∀ f : Graph → Stage σ String, (Stage.graph >>= f) s = f s.graph s := fun _ => rfl
  rw [Writer.write, hgraph, written]
  cases s.graph.kind? id with
  | none => exact hrest s
  | some kind =>
    cases kind with
    | root => exact hrest s
    | _ => exact ⟨s.log, rfl⟩

end MarkdownTree
