import MarkdownTree.Event
import MarkdownTree.Proofs.Located

/-!
# Building from events

The events of a tree are balanced, so building goes back from them to the tree (`build_ofTree`): a node is made when it
is left, and what its content says passes the checks of its kind (`fieldsFor_given`).
-/

namespace MarkdownTree.Event

open Scan

/-- The frame of a node that is entered. -/
def frameOf (span : Span) (content : Content) : Frame :=
  ⟨content.kind.name, span.start, content.attributes, content.value?.map .text, []⟩

private theorem value_getD (value : String) :
    ((some (Value.text value)).filter Value.truthy).getD (.text "") = .text value := by
  by_cases h : value = ""
  · subst h
    rfl
  · simp [Option.filter, Value.truthy, h]

/-- A node that a scanner makes passes the checks of its kind, and keeps what it says. -/
theorem fieldsFor_given {content : Content} {children : List Content} (h : content.Admits children) (f : Frame)
    (hattributes : f.attributes = content.attributes) (hvalue : f.value = content.value?.map .text) :
    Draft.fieldsFor content.kind (f.given content.kind) = .ok content.fields := by
  unfold Frame.given
  rw [hattributes, hvalue]
  cases content with
  | heading depth =>
    obtain ⟨-, hone, hsix⟩ := h
    have hdepth : ((Size.ofInt 1).upTo (.ofInt depth) && (Size.ofInt depth).upTo (.ofInt 6)) = true := by
      rw [Size.upTo_ofInt, Size.upTo_ofInt, decide_eq_true hone, decide_eq_true hsix]
      rfl
    exact if_pos hdepth
  | list ordered start spread =>
    obtain ⟨-, -, hordered, hstart⟩ := h
    subst hordered
    cases start with
    | none => rfl
    | some n =>
      have hbelow : (Size.ofInt n).below (.ofInt 0) = false := by
        rw [Size.below_ofInt, decide_eq_false (Int.not_lt.2 (hstart n rfl).1)]
      exact if_neg (Bool.eq_false_iff.1 hbelow)
  | frontMatter value =>
    simp only [Content.value?, Option.map_some, value_getD]
    rfl
  | codeBlock value lang details =>
    simp only [Content.value?, Option.map_some, value_getD]
    rfl
  | text value =>
    simp only [Content.value?, Option.map_some, value_getD]
    rfl
  | inlineCode value =>
    simp only [Content.value?, Option.map_some, value_getD]
    rfl
  | _ => rfl

theorem make_eq_ok (l : Locator) {span : Span} (h : span.start ≤ span.stop) :
    Position.make (l.point span.start) (l.point span.stop) = .ok (l.positionOf span) := by
  have hsome : Position.between? (l.point span.start) (l.point span.stop) = some (l.positionOf span) :=
    l.position?_eq_some h
  rw [Position.make, hsome]

/-- The draft of a tree with positions in place of its spans. -/
def draftOf (l : Locator) (t : Tree Span) : Draft :=
  .ofTree (t.map fun s => some (l.positionOf s))

/-- The drafts of trees. -/
def draftsOf (l : Locator) (ts : List (Tree Span)) : List Draft :=
  Draft.ofTrees (Tree.mapList (fun s => some (l.positionOf s)) ts)

/-- Leaving a regular node makes it. -/
private theorem make_frameOf {source : List Char} (l : Locator) {span : Span} {content : Content}
    {children : List (Tree Span)}
    (h : Regular source (.node span content children)) :
    Frame.make l { frameOf span content with children := draftsOf l children } span.stop
      = .ok (draftOf l (.node span content children)) := by
  have hfields : Draft.fieldsFor content.kind
      (Frame.given { frameOf span content with children := draftsOf l children } content.kind) = .ok content.fields :=
    fieldsFor_given h.admits _ rfl rfl
  have hposition : Position.make (l.point span.start) (l.point span.stop) = .ok (l.positionOf span) :=
    make_eq_ok l h.within.le
  have hkind : Kind.ofName? content.kind.name = some content.kind := Kind.ofName?_name _
  -- Making a node keeps the children of parents only, but no other node has any.
  have hdrafts : (if content.kind.isParent then draftsOf l children else []) = draftsOf l children := by
    split
    · rfl
    · rename_i hleaf
      have hnil : children = [] := List.map_eq_nil_iff.1 (h.admits.eq_nil (Bool.eq_false_iff.2 hleaf))
      rw [hnil]
      rfl
  simp only [Frame.make, frameOf] at hfields ⊢
  rw [hposition]
  simp only [hkind, Draft.make, hdrafts]
  show (do return Draft.node _ (← Draft.fieldsFor content.kind _) _ _ _) = _
  rw [hfields]
  rfl

variable {source : List Char} (l : Locator)

private theorem run_enter (frames : List Frame) (span : Span) (content : Content) (es : List Event) :
    Building.run l ⟨frames, none⟩
        (.enter content.kind.name span.start content.attributes (content.value?.map .text) :: es)
      = Building.run l ⟨frameOf span content :: frames, none⟩ es :=
  rfl

theorem run_leave {f : Frame} {stop : Int} {node : Draft} (hmake : f.make l stop = .ok node) (outer : Frame)
    (frames : List Frame) (es : List Event) :
    Building.run l ⟨f :: outer :: frames, none⟩ (.leave f.kind stop :: es)
      = Building.run l ⟨{ outer with children := outer.children ++ [node] } :: frames, none⟩ es := by
  simp only [Building.run, Building.step, ne_eq, not_true_eq_false, if_false, hmake]
  rfl

theorem run_leave_last {f : Frame} {stop : Int} {node : Draft} (hmake : f.make l stop = .ok node) :
    Building.run l ⟨[f], none⟩ [.leave f.kind stop] = .ok ⟨[], some node⟩ := by
  simp only [Building.run, Building.step, ne_eq, not_true_eq_false, if_false, hmake]
  rfl

mutual

/-- The events of a tree add its draft to the frame that is open. -/
private theorem run_ofTree : ∀ (t : Tree Span), (∀ u ∈ t.preorder, Regular source u) → ∀ f frames es,
    Building.run l ⟨f :: frames, none⟩ (ofTree t ++ es)
      = Building.run l ⟨{ f with children := f.children ++ [draftOf l t] } :: frames, none⟩ es
  | .node span content children, h, f, frames, es => by
    obtain ⟨htop, hchildren⟩ := Tree.forall_mem_preorder.1 h
    have hrun := run_ofTrees children hchildren (frameOf span content) (f :: frames)
      (.leave content.kind.name span.stop :: es)
    have hmake := make_frameOf l htop
    simp only [ofTree, List.cons_append, List.append_assoc, List.nil_append]
    rw [run_enter, hrun]
    exact run_leave l hmake f frames es

private theorem run_ofTrees : ∀ (ts : List (Tree Span)), (∀ t ∈ ts, ∀ u ∈ t.preorder, Regular source u) → ∀ f frames es,
    Building.run l ⟨f :: frames, none⟩ (ofTrees ts ++ es)
      = Building.run l ⟨{ f with children := f.children ++ draftsOf l ts } :: frames, none⟩ es
  | [], _, f, frames, es => by simp [ofTrees, draftsOf, Tree.mapList, Draft.ofTrees]
  | t :: ts, h, f, frames, es => by
    obtain ⟨ht, hts⟩ := List.forall_mem_cons.1 h
    rw [ofTrees, List.append_assoc, run_ofTree t ht, run_ofTrees ts hts]
    simp [draftsOf, draftOf, Tree.mapList, Draft.ofTrees]

end

/-- Building from the events of a tree gives what its node makes of its children, if that is a root. -/
theorem build_of_make {span : Span} {content : Content} {children : List (Tree Span)} {node : Draft}
    (h : ∀ t ∈ children, ∀ u ∈ t.preorder, Regular source u)
    (hmake : Frame.make l { frameOf span content with children := draftsOf l children } span.stop = .ok node)
    (hroot : node.kind? = some .root) : build l (ofTree (.node span content children)) = .ok node := by
  have hrun := run_ofTrees l children h (frameOf span content) [] [.leave content.kind.name span.stop]
  have hlast := run_leave_last l hmake
  have hall : Building.run l ⟨[], none⟩ (ofTree (.node span content children)) = .ok ⟨[], some node⟩ := by
    simp only [ofTree, List.cons_append]
    rw [run_enter, hrun]
    exact hlast
  rw [build, hall]
  exact if_pos hroot

/-- Building goes back from the events of a tree to the tree. -/
theorem build_ofTree {t : Tree Span} (h : ∀ u ∈ t.preorder, Regular source u) (hroot : t.kind = .root) :
    build l (ofTree t) = .ok (draftOf l t) := by
  obtain ⟨span, content, children⟩ := t
  obtain ⟨htop, hchildren⟩ := Tree.forall_mem_preorder.1 h
  exact build_of_make l hchildren (make_frameOf l htop) (congrArg some hroot)

end MarkdownTree.Event
