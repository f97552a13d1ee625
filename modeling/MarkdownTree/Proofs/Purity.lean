import MarkdownTree.Proofs.Difference
import MarkdownTree.Proofs.Serialized
import MarkdownTree.Proofs.Waiting
import MarkdownTree.Purity

/-!
# What a purity report tells

Where two runs of a plugin leave trees whose fields have the types of their kinds, there is a report on them, and it
calls the plugin pure exactly when the trees are the same but for separators, the diagnostics say the same in the same
order, and no node stands in both trees (`comparePurity_isPure_iff`).  Trees that differ in a separator only are
reported to be the same, and of trees that cannot be serialized there is no report (`comparePurity_inexact`).
-/

namespace MarkdownTree

open Draft

/-! ### Trees below nodes -/

namespace Draft

mutual

/-- The draft is that of a tree, whatever the identities of its nodes. -/
def isTree : Draft → Tree (Option Position) → Bool
  | node kind fields place children _, .node position content trees =>
    kind == content.kind && fields == content.fields && place == position.map .ofPosition && areTrees children trees
  | other _, _ => false

/-- The drafts are those of a list of trees. -/
def areTrees : List Draft → List (Tree (Option Position)) → Bool
  | [], [] => true
  | t :: ts, u :: us => isTree t u && areTrees ts us
  | _, _ => false

end

mutual

/-- Serialized forms have no identities. -/
private theorem encodeWith_of_isTree (position : Place → Option Value) : ∀ {t : Draft} {u : Tree (Option Position)},
    t.isTree u = true → t.encodeWith position = (ofTree u).encodeWith position
  | node kind fields place children id, .node at? content trees, h => by
    simp only [isTree, Bool.and_eq_true, beq_iff_eq] at h
    obtain ⟨⟨⟨rfl, rfl⟩, rfl⟩, hchildren⟩ := h
    rw [ofTree, encodeWith, encodeWith, encodeList_of_areTrees position hchildren]
  | other _, .node .., h => by cases h

private theorem encodeList_of_areTrees (position : Place → Option Value) :
    ∀ {ts : List Draft} {us : List (Tree (Option Position))},
      areTrees ts us = true → encodeList position ts = encodeList position (ofTrees us)
  | [], [], _ => rfl
  | t :: ts, u :: us, h => by
    obtain ⟨hhead, hrest⟩ := (Bool.and_eq_true _ _).mp h
    rw [ofTrees, encodeList, encodeList, encodeWith_of_isTree position hhead, encodeList_of_areTrees position hrest]
  | [], _ :: _, h => by cases h
  | _ :: _, [], h => by cases h

end

private theorem areTrees_iff_forall₂ {ts : List Draft} {us : List (Tree (Option Position))} :
    areTrees ts us = true ↔ List.Forall₂ (fun t u => isTree t u = true) ts us := by
  induction ts generalizing us with
  | nil => cases us <;> simp [areTrees]
  | cons t ts ih => cases us <;> simp [areTrees, ih]

end Draft

private theorem exists_of_forall₂ {α β : Type} {R : α → β → Prop} {as : List α} {bs : List β}
    (h : List.Forall₂ R as bs) {a : α} (ha : a ∈ as) : ∃ b ∈ bs, R a b := by
  induction h with
  | nil => cases ha
  | cons hhead _ ih =>
    rcases List.mem_cons.1 ha with rfl | ha
    · exact ⟨_, List.mem_cons_self, hhead⟩
    · obtain ⟨b, hb, hrel⟩ := ih ha
      exact ⟨b, List.mem_cons_of_mem _ hb, hrel⟩

private theorem Tree.properList_iff {α : Type u} {ts : List (Tree α)} : ProperList ts ↔ ∀ t ∈ ts, t.Proper := by
  induction ts with
  | nil => simp [ProperList]
  | cons t ts ih => rw [ProperList, ih, List.forall_mem_cons]

namespace Graph

variable {g : Graph}

/-- The tree below a node is the given one, whose fields have the types of their kinds. -/
def Shows (g : Graph) (id : NodeId) (t : Tree (Option Position)) : Prop :=
  (g.unfold id).isTree t = true

/-- Where a tree is seen, a node stands, and its children show those of the tree. -/
private theorem cell?_of_unfoldTo {depth : Nat} {id : NodeId} {position : Option Position} {content : Content}
    {children : List (Tree (Option Position))}
    (h : (g.unfoldTo (depth + 1) (.node id)).isTree (.node position content children) = true) :
    ∃ c, g.cell? id = some c ∧ c.kind = content.kind ∧
      List.Forall₂ (fun x t => (g.unfoldTo depth x).isTree t = true) c.items children := by
  rw [unfoldTo] at h
  cases hcell : g.cell? id with
  | none =>
    rw [hcell] at h
    cases h
  | some c =>
    rw [hcell] at h
    simp only [isTree, Bool.and_eq_true, beq_iff_eq, areTrees_iff_forall₂, List.forall₂_map_left_iff] at h
    exact ⟨c, rfl, h.1.1.1, h.2⟩

private theorem proper_of_unfoldTo {depth : Nat} {x : Item} {t : Tree (Option Position)}
    (h : (g.unfoldTo depth x).isTree t = true) : t.Proper := by
  induction depth generalizing x t with
  | zero => cases t; cases h
  | succ depth ih =>
    obtain ⟨position, content, children⟩ := t
    cases x with
    | value v => cases h
    | node id =>
      obtain ⟨c, -, hkind, hchildren⟩ := cell?_of_unfoldTo h
      refine ⟨fun hparent => ?_, Tree.properList_iff.2 fun t ht => ?_⟩
      · have hitems : c.items = [] := if_neg (by rw [hkind, hparent]; exact Bool.false_ne_true)
        rw [hitems] at hchildren
        exact List.forall₂_nil_left_iff.1 hchildren
      · obtain ⟨y, -, hy⟩ := exists_of_forall₂ hchildren.flip ht
        exact ih hy

private theorem mem_items_of_mem_childIds {id child : NodeId} {c : Cell} (hcell : g.cell? id = some c)
    (h : child ∈ g.childIds id) : .node child ∈ c.items := by
  have hids : child ∈ c.childIds := by
    rw [childIds, hcell] at h
    exact h
  obtain ⟨x, hx, hid⟩ := List.mem_filterMap.1 hids
  cases x with
  | node other =>
    cases hid
    exact hx
  | value v => cases hid

private theorem cell?_of_mem_preorderTo {depth : Nat} {id : NodeId} {t : Tree (Option Position)}
    (h : (g.unfoldTo depth (.node id)).isTree t = true) :
    ∀ i ∈ g.preorderTo depth id, ∃ c, g.cell? i = some c := by
  induction depth generalizing id t with
  | zero => cases t; cases h
  | succ depth ih =>
    obtain ⟨position, content, children⟩ := t
    obtain ⟨c, hcell, -, hchildren⟩ := cell?_of_unfoldTo h
    intro i hi
    rw [preorderTo, List.mem_cons, List.mem_flatMap] at hi
    rcases hi with rfl | ⟨child, hchild, hi⟩
    · exact ⟨c, hcell⟩
    · have hitem := mem_items_of_mem_childIds hcell hchild
      obtain ⟨u, -, hu⟩ := exists_of_forall₂ hchildren hitem
      exact ih hu i hi

private theorem Shows.proper {id : NodeId} {t : Tree (Option Position)} (h : g.Shows id t) : t.Proper :=
  proper_of_unfoldTo h

private theorem Shows.encode {id : NodeId} {t : Tree (Option Position)} (h : g.Shows id t) :
    (g.unfold id).encode true = (ofTree t).encode true :=
  encodeWith_of_isTree _ h

/-- The kinds of the nodes that two trees share are none exactly when the trees share no node. -/
private theorem Shows.shared_eq_nil_iff {first second : NodeId} {u : Tree (Option Position)} (h : g.Shows second u) :
    (g.shared first second).filterMap g.kind? = [] ↔ ∀ id ∈ g.preorder first, id ∉ g.preorder second := by
  rw [List.filterMap_eq_nil_iff]
  constructor
  · intro hnone id hfirst hsecond
    obtain ⟨c, hcell⟩ := cell?_of_mem_preorderTo h id hsecond
    have hkind := hnone id (List.mem_filter.2 ⟨hsecond, List.contains_iff_mem.2 hfirst⟩)
    rw [kind?, hcell] at hkind
    cases hkind
  · intro hapart id hid
    obtain ⟨hsecond, hfirst⟩ := List.mem_filter.1 hid
    cases hapart id (List.contains_iff_mem.1 hfirst) hsecond

end Graph

/-- Trees that can be serialized are compared by their lines. -/
private theorem treeDifference_of_encode {s r : Draft} {t u : Tree (Option Position)}
    (hs : s.encode true = (ofTree t).encode true) (hr : r.encode true = (ofTree u).encode true) (ht : t.Proper)
    (hu : u.Proper) :
    ∃ differences, treeDifference s r = .ok differences ∧ (differences = [] ↔ t.merged = u.merged) := by
  refine ⟨Text.difference "first run" "second run" _ _, ?_, Text.difference_eq_nil_iff.trans (lines_eq_iff ht hu 2)⟩
  rw [treeDifference, toJson_of_encode hs, toJson_of_encode hr]
  rfl

/-! ### Reports -/

namespace Processor

variable {σ : Type} {p : Processor σ} {file : File} {s s₁ s₂ : Session σ} {first second : NodeId}
  {messages others : List Diagnostic}

/-- A report on the differences of two runs. -/
private theorem comparePurity_of_trials {differences : List String} (hfirst : p.trial file s = .ok (first, messages) s₁)
    (hsecond : p.trial file s₁ = .ok (second, others) s₂)
    (hdifference : treeDifference (s₂.graph.unfold first) (s₂.graph.unfold second) = .ok differences) :
    ∃ report s₃, p.comparePurity file s = .ok report s₃ ∧ report.differences = differences ∧
      report.shared = (s₂.graph.shared first second).filterMap s₂.graph.kind? ∧
      report.messagesMatch = (messages.map Diagnostic.essence == others.map Diagnostic.essence) := by
  have hgraph : (Stage.graph : Stage σ Graph) s₂ = .ok s₂.graph s₂ := rfl
  have hlift : (liftM (treeDifference (s₂.graph.unfold first) (s₂.graph.unfold second)) : Stage σ (List String)) s₂ =
      .ok differences s₂ := by
    rw [hdifference]
    rfl
  unfold comparePurity
  rw [bind_of_ok hfirst]
  dsimp only
  rw [bind_of_ok hsecond]
  dsimp only
  rw [bind_of_ok hgraph, bind_of_ok hlift]
  split <;> exact ⟨_, _, rfl, rfl, rfl, rfl⟩

/-- Where what two runs leave cannot be compared there is no report. -/
theorem comparePurity_of_fault {fault : Fault} (hfirst : p.trial file s = .ok (first, messages) s₁)
    (hsecond : p.trial file s₁ = .ok (second, others) s₂)
    (hdifference : treeDifference (s₂.graph.unfold first) (s₂.graph.unfold second) = .error fault) :
    p.comparePurity file s = .error fault s₂ := by
  have hgraph : (Stage.graph : Stage σ Graph) s₂ = .ok s₂.graph s₂ := rfl
  have hlift : (liftM (treeDifference (s₂.graph.unfold first) (s₂.graph.unfold second)) : Stage σ (List String)) s₂ =
      .error fault s₂ := by
    rw [hdifference]
    rfl
  unfold comparePurity
  rw [bind_of_ok hfirst]
  dsimp only
  rw [bind_of_ok hsecond]
  dsimp only
  rw [bind_of_ok hgraph, bind_of_error hlift]

/-- Where two runs leave trees whose fields have the types of their kinds, the report calls the plugin pure exactly when
the trees are the same but for separators, the diagnostics say the same, and no node stands in both trees. -/
theorem comparePurity_isPure_iff {t u : Tree (Option Position)} (hfirst : p.trial file s = .ok (first, messages) s₁)
    (hsecond : p.trial file s₁ = .ok (second, others) s₂) (ht : s₂.graph.Shows first t)
    (hu : s₂.graph.Shows second u) :
    ∃ report s₃, p.comparePurity file s = .ok report s₃ ∧
      (report.isPure = true ↔ t.merged = u.merged ∧ messages.map Diagnostic.essence = others.map Diagnostic.essence ∧
        ∀ id ∈ s₂.graph.preorder first, id ∉ s₂.graph.preorder second) := by
  obtain ⟨differences, hdifference, hsame⟩ := treeDifference_of_encode ht.encode hu.encode ht.proper hu.proper
  obtain ⟨report, s₃, hreport, hdifferences, hshared, hmessages⟩ := comparePurity_of_trials hfirst hsecond hdifference
  refine ⟨report, s₃, hreport, ?_⟩
  rw [PurityReport.isPure, Bool.and_eq_true, Bool.and_eq_true, List.isEmpty_iff, List.isEmpty_iff, hdifferences,
    hshared, hmessages, hsame, hu.shared_eq_nil_iff, beq_iff_eq, and_assoc]
  exact and_congr_right fun _ => and_comm

/-! ### Plugins that a report is wrong or silent about -/

/-- A session whose plugins have not remembered anything. -/
def counting : Session Nat :=
  default

/-- A transformer that adds something to the children of the root. -/
def adding (x : Stage σ Item) : List (String × Transformer σ) :=
  [("add", fun tree => do
    let x ← x
    Stage.edit fun g => g.modifyItems tree (· ++ [x])
    return .now (.value .null))]

/-- A paragraph that holds what it is given. -/
def addParagraph (x : Item) : Stage σ Item := do
  return .node (← Stage.add ⟨.paragraph, [], .items [x], none, .empty⟩)

/-- A processor that adds a paragraph to each file, of one text to the first and of another to the rest. -/
def alternating (one other : String) : Processor Nat where
  transformers := some (adding do
    let n ← Stage.memory
    Stage.remember (· + 1)
    let value := if n = 0 then one else other
    addParagraph (.node (← Stage.add ⟨.text, [("value", .text value)], .none, none, .empty⟩)))

/-- A processor that adds a paragraph that holds a number. -/
def straying : Processor Nat where
  transformers := some (adding (addParagraph (.value (.int 5))))

/-- The tree of an empty file with a paragraph of a text. -/
def emptyAnd (s : String) : Tree (Option Position) :=
  let origin : Point := ⟨1, 1, 0⟩
  .node (some ⟨origin, origin⟩) .root [.node none .paragraph [.node none (.text s) []]]

private theorem merged_emptyAnd (s t : String) :
    (emptyAnd s).merged = (emptyAnd t).merged ↔ Text.merge s = Text.merge t := by
  simp [emptyAnd, Tree.merged, Tree.mergedList, Content.merged]

/-- Two runs of the processor that alternates, on empty files, leave trees apart with the two texts, and no messages. -/
private def alternates (one other : String) : Bool :=
  match (alternating one other).trial default counting with
  | .ok (first, messages) s₁ =>
    match (alternating one other).trial default s₁ with
    | .ok (second, others) s₂ =>
      (s₂.graph.unfold first).isTree (emptyAnd one) && (s₂.graph.unfold second).isTree (emptyAnd other) &&
        (s₂.graph.shared first second).isEmpty && messages.isEmpty && others.isEmpty
    | .error .. => false
  | .error .. => false

private theorem trials_of_alternates (one other : String) (h : alternates one other = true) :
    ∃ first second s₁ s₂, (alternating one other).trial default counting = .ok (first, []) s₁ ∧
      (alternating one other).trial default s₁ = .ok (second, []) s₂ ∧ s₂.graph.Shows first (emptyAnd one) ∧
      s₂.graph.Shows second (emptyAnd other) ∧ s₂.graph.shared first second = [] := by
  unfold alternates at h
  cases hfirst : (alternating one other).trial default counting with
  | error => simp [hfirst] at h
  | ok result s₁ =>
    obtain ⟨first, messages⟩ := result
    cases hsecond : (alternating one other).trial default s₁ with
    | error => simp [hfirst, hsecond] at h
    | ok result s₂ =>
      obtain ⟨second, others⟩ := result
      simp only [hfirst, hsecond, Bool.and_eq_true, List.isEmpty_iff] at h
      obtain ⟨⟨⟨⟨ht, hu⟩, hshared⟩, rfl⟩, rfl⟩ := h
      exact ⟨first, second, s₁, s₂, rfl, hsecond, ht, hu, hshared⟩

/-- A plugin that does something else every time is not pure. -/
theorem comparePurity_isPure_alternating :
    ∃ report s, (alternating "one" "other").comparePurity default counting = .ok report s ∧ report.isPure = false := by
  obtain ⟨first, second, s₁, s₂, hfirst, hsecond, ht, hu, -⟩ :=
    trials_of_alternates "one" "other" (by decide +kernel)
  obtain ⟨report, s, hreport, hpure⟩ := comparePurity_isPure_iff hfirst hsecond ht hu
  have hne : Text.merge "one" ≠ Text.merge "other" := by decide +kernel
  exact ⟨report, s, hreport, Bool.eq_false_iff.2 fun h => hne ((merged_emptyAnd _ _).1 (hpure.1 h).1)⟩

/-- A plugin that adds a line separator to one file and a paragraph separator to the next is reported to be pure.  Of a
plugin that puts a number among the children of a paragraph there is no report. -/
theorem comparePurity_inexact :
    (∃ first second s₁ s₂ report left, (alternating "\u2028" "\u2029").trial default counting = .ok (first, []) s₁ ∧
      (alternating "\u2028" "\u2029").trial default s₁ = .ok (second, []) s₂ ∧
      s₂.graph.Shows first (emptyAnd "\u2028") ∧ s₂.graph.Shows second (emptyAnd "\u2029") ∧
      emptyAnd "\u2028" ≠ emptyAnd "\u2029" ∧
      (alternating "\u2028" "\u2029").comparePurity default counting = .ok report left ∧ report.isPure = true) ∧
    ∃ left, straying.comparePurity default counting = .error .field left := by
  constructor
  · obtain ⟨first, second, s₁, s₂, hfirst, hsecond, ht, hu, hshared⟩ :=
      trials_of_alternates "\u2028" "\u2029" (by decide +kernel)
    obtain ⟨differences, hdifference, hsame⟩ := treeDifference_of_encode ht.encode hu.encode ht.proper hu.proper
    obtain ⟨report, left, hreport, hdifferences, hkinds, hmessages⟩ :=
      comparePurity_of_trials hfirst hsecond hdifference
    have hmerged : Text.merge "\u2028" = Text.merge "\u2029" := by decide +kernel
    refine ⟨first, second, s₁, s₂, report, left, hfirst, hsecond, ht, hu, by simp [emptyAnd], hreport, ?_⟩
    rw [PurityReport.isPure, hdifferences, hsame.2 ((merged_emptyAnd _ _).2 hmerged), hkinds, hshared, hmessages]
    rfl
  · have hfails : (match straying.comparePurity default counting with
        | .error .field _ => true
        | _ => false) = true := by decide +kernel
    split at hfails
    · exact ⟨_, ‹_›⟩
    · cases hfails

end Processor

end MarkdownTree
