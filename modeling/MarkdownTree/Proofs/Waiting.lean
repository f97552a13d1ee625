import MarkdownTree.Processor.Run

/-!
# Waiting makes no difference

There are two ways to pass a tree through transformers, and they are written apart.  Where no transformer of a run hands
back something to wait for, the run that waits ends as the one that does not: with the same result or the same fault, and
with the same session.  It does so too where transformers hand back later what others hand back at once
(`transformUntil_answered`, `process_eq_processSync`).
-/

namespace MarkdownTree

variable {σ : Type}

/-- What is handed back in the end, at once or after waiting. -/
def Handed.awaited : Handed σ → Stage σ Item
  | .now item => return item
  | .later wait _ => wait

/-- What comes of a transformer in the end. -/
def Transformer.outcome (t : Transformer σ) (tree : NodeId) : Stage σ Item := do
  (← t tree).awaited

namespace Processor

/-! ### Runs on which nothing has to be waited for -/

/-- No transformer that is called on the run from the given tree and session hands back something to wait for. -/
def PromptFrom (tree : NodeId) : List (String × Transformer σ) → Session σ → Prop
  | [], _ => True
  | (name, t) :: ts, s =>
    match (do announce name; t tree : Stage σ (Handed σ)) s with
    | .ok (.now item) s => ∀ next s', settle name tree item s = .ok next s' → PromptFrom next ts s'
    | .ok (.later ..) _ => False
    | .error .. => True

/-- Every transformer of the first list that is called on the run from the given tree and session hands back at once
what the one in its place in the second list comes to, or fails as that does. -/
def AnsweredFrom (tree : NodeId) : List (String × Transformer σ) → List (String × Transformer σ) → Session σ → Prop
  | [], [], _ => True
  | (name, t) :: ts, (name', u) :: us, s =>
    name = name' ∧
      match (do announce name; t tree : Stage σ (Handed σ)) s with
      | .ok (.now item) s' => (do announce name; u.outcome tree : Stage σ Item) s = .ok item s' ∧
          ∀ next s'', settle name tree item s' = .ok next s'' → AnsweredFrom next ts us s''
      | .ok (.later ..) _ => False
      | .error fault s' => (do announce name; u.outcome tree : Stage σ Item) s = .error fault s'
  | _, _, _ => False

/-- What a run does before its transformers: it reads the file and gives it the tree. -/
def prepare (p : Processor σ) : Stage σ NodeId := do
  begin
  let tree ← p.parse
  Stage.setTree tree
  return tree

/-- On the run of the processor from the session, no transformer hands back something to wait for. -/
def Prompt (p : Processor σ) (s : Session σ) : Prop :=
  ∀ frozen s', p.freeze s = .ok frozen s' → ∀ tree s'', frozen.prepare s' = .ok tree s'' →
    PromptFrom tree (frozen.transformers.getD []) s''

/-- The second processor reads and writes as the first, and on the run from the session its transformers come to what
those of the first hand back at once. -/
def AnsweredBy (p q : Processor σ) (s : Session σ) : Prop :=
  match p.freeze s with
  | .ok frozen s' => ∃ other, q.freeze s = .ok other s' ∧ other.reader = frozen.reader ∧
      other.writer = frozen.writer ∧ ∀ tree s'', frozen.prepare s' = .ok tree s'' →
        AnsweredFrom tree (frozen.transformers.getD []) (other.transformers.getD []) s''
  | .error fault s' => q.freeze s = .error fault s'

/-! ### Stages one after the other -/

section

variable {α β : Type} {x : Stage σ α} {f : α → Stage σ β} {s s' : Session σ}

theorem bind_of_ok {a : α} (h : x s = .ok a s') : (x >>= f) s = f a s' := by
  show EStateM.bind x f s = _
  rw [EStateM.bind, h]

theorem bind_of_error {fault : Fault} (h : x s = .error fault s') : (x >>= f) s = .error fault s' := by
  show EStateM.bind x f s = _
  rw [EStateM.bind, h]

theorem exists_of_bind {b : β} {s'' : Session σ} (h : (x >>= f) s = .ok b s'') :
    ∃ a s', x s = .ok a s' ∧ f a s' = .ok b s'' := by
  cases hx : x s with
  | ok a s' => exact ⟨a, s', rfl, (bind_of_ok hx).symm.trans h⟩
  | error fault s' => cases (bind_of_error hx).symm.trans h

/-- A stage either succeeds or fails. -/
theorem ok_or_error (x : Stage σ α) (s : Session σ) :
    (∃ a s', x s = .ok a s') ∨ ∃ fault s', x s = .error fault s' := by
  cases h : x s with
  | ok a s' => exact .inl ⟨a, s', rfl⟩
  | error fault s' => exact .inr ⟨fault, s', rfl⟩

theorem tryCatch_of_ok {handle : Fault → Stage σ α} {a : α} (h : x s = .ok a s') :
    tryCatch x handle s = .ok a s' := by
  show EStateM.tryCatch x handle s = _
  delta EStateM.tryCatch
  simp only [h]

theorem tryCatch_of_error {handle : Fault → Stage σ α} {fault : Fault} (h : x s = .error fault s') :
    tryCatch x handle s = handle fault s' := by
  show EStateM.tryCatch x handle s = _
  delta EStateM.tryCatch
  simp only [h]
  rfl

theorem guarded_of_ok (name : String) {a : α} (h : x s = .ok a s') : guarded name x s = .ok a s' :=
  tryCatch_of_ok h

theorem guarded_of_error (name : String) {fault : Fault} (h : x s = .error fault s') :
    guarded name x s = guarded name (throw fault : Stage σ α) s' :=
  tryCatch_of_error h

/-- A fault stays one when it is wrapped, and what the stage would have given does not matter for it. -/
theorem guarded_throw (name : String) (fault : Fault) (s : Session σ) :
    ∃ wrapped s', ∀ {α : Type}, guarded name (throw fault : Stage σ α) s = .error wrapped s' := by
  cases fault <;> exact ⟨_, _, rfl⟩

theorem ok_of_guarded {name : String} {a : α} (h : guarded name x s = .ok a s') : x s = .ok a s' := by
  rcases ok_or_error x s with ⟨b, s₁, hx⟩ | ⟨cause, s₁, hx⟩
  · exact hx.trans ((guarded_of_ok name hx).symm.trans h)
  · obtain ⟨wrapped, s₂, hwrapped⟩ := guarded_throw name cause s₁
    cases ((guarded_of_error name hx).trans hwrapped).symm.trans h

/-- Wrapping the faults of two stages is wrapping those of each. -/
private theorem guarded_bind (name : String) (x : Stage σ α) (f : α → Stage σ β) :
    guarded name (x >>= f) = guarded name x >>= fun a => guarded name (f a) := by
  funext s
  rcases ok_or_error x s with ⟨a, s', hx⟩ | ⟨fault, s', hx⟩
  · rw [bind_of_ok (guarded_of_ok name hx)]
    rcases ok_or_error (f a) s' with ⟨b, s'', hf⟩ | ⟨fault, s'', hf⟩
    · rw [guarded_of_ok name hf, guarded_of_ok name ((bind_of_ok hx).trans hf)]
    · rw [guarded_of_error name hf, guarded_of_error name ((bind_of_ok hx).trans hf)]
  · obtain ⟨wrapped, s'', hwrapped⟩ := guarded_throw name fault s'
    rw [guarded_of_error name (bind_of_error hx), hwrapped,
      bind_of_error ((guarded_of_error name hx).trans hwrapped)]

end

/-! ### Transforming -/

/-- One step of a run that waits: what the transformer comes to settles the tree that goes on. -/
private theorem transformUntil_cons (tree : NodeId) (name : String) (u : Transformer σ)
    (us : List (String × Transformer σ)) :
    transformUntil (pure false) tree ((name, u) :: us) = (do
      announce name
      let item ← guarded name (u.outcome tree)
      transformUntil (pure false) (← settle name tree item) us) := by
  have houtcome : guarded name (u.outcome tree) = (do
      match ← guarded name (u tree) with
      | .now item => return item
      | .later wait _ => guarded name wait) := by
    rw [Transformer.outcome, guarded_bind]
    refine bind_congr fun handed => ?_
    cases handed <;> rfl
  simp only [transformUntil, houtcome, pure_bind, bind_assoc, Bool.false_eq_true, if_false]
  refine bind_congr fun _ => bind_congr fun handed => ?_
  cases handed <;> rfl

/-- A run that waits goes on as one that does not, as long as its transformers come to what those of the other hand back
at once. -/
theorem transformUntil_answered {ts us : List (String × Transformer σ)} {tree : NodeId} {s : Session σ}
    (h : AnsweredFrom tree ts us s) :
    transformUntil (pure false) tree us s = (do return (← transformNow tree ts, none)) s := by
  induction ts generalizing us tree s with
  | nil =>
    cases us with
    | nil => rfl
    | cons => exact h.elim
  | cons head ts ih =>
    obtain ⟨name, t⟩ := head
    cases us with
    | nil => exact h.elim
    | cons other us =>
      obtain ⟨name', u⟩ := other
      obtain ⟨rfl, h⟩ := h
      obtain ⟨s₁, hs₁⟩ : ∃ s₁, announce name s = .ok () s₁ := ⟨_, rfl⟩
      rw [transformUntil_cons, transformNow, bind_assoc, bind_of_ok hs₁, bind_of_ok hs₁, bind_assoc]
      rw [bind_of_ok hs₁, bind_of_ok hs₁] at h
      rcases ok_or_error (t tree) s₁ with ⟨handed, s₂, ht⟩ | ⟨fault, s₂, ht⟩
      · rw [ht] at h
        rw [bind_of_ok (guarded_of_ok name ht)]
        cases handed with
        | later => exact h.elim
        | now item =>
          obtain ⟨hu, hrest⟩ := h
          rw [bind_of_ok (guarded_of_ok name hu)]
          simp only [bind_assoc]
          rcases ok_or_error (settle name tree item) s₂ with ⟨next, s₃, hsettle⟩ | ⟨fault, s₃, hsettle⟩
          · rw [bind_of_ok hsettle, bind_of_ok hsettle]
            exact ih (hrest next s₃ hsettle)
          · rw [bind_of_error hsettle, bind_of_error hsettle]
      · rw [ht] at h
        obtain ⟨wrapped, s₃, hwrapped⟩ := guarded_throw name fault s₂
        rw [bind_of_error ((guarded_of_error name h).trans hwrapped),
          bind_of_error ((guarded_of_error name ht).trans hwrapped)]

/-- Transformers that hand back nothing to wait for come to what they hand back. -/
private theorem answeredFrom_of_promptFrom {ts : List (String × Transformer σ)} {tree : NodeId} {s : Session σ}
    (h : PromptFrom tree ts s) : AnsweredFrom tree ts ts s := by
  induction ts generalizing tree s with
  | nil => trivial
  | cons head ts ih =>
    obtain ⟨name, t⟩ := head
    obtain ⟨s₁, hs₁⟩ : ∃ s₁, announce name s = .ok () s₁ := ⟨_, rfl⟩
    refine ⟨rfl, ?_⟩
    unfold PromptFrom at h
    rw [bind_of_ok hs₁] at h
    rw [bind_of_ok hs₁, bind_of_ok hs₁]
    rcases ok_or_error (t tree) s₁ with ⟨handed, s₂, ht⟩ | ⟨fault, s₂, ht⟩
    · rw [ht] at h
      rw [ht, Transformer.outcome, bind_of_ok ht]
      cases handed with
      | later => exact h
      | now item => exact ⟨rfl, fun next s₃ hsettle => ih (h next s₃ hsettle)⟩
    · rw [ht, Transformer.outcome, bind_of_error ht]

/-! ### Whole runs -/

variable {p q : Processor σ} {s : Session σ}

theorem freeze_of_isFrozen (h : p.isFrozen = true) : p.freeze = pure p := by
  rw [freeze, if_pos h]

private theorem isFrozen_of_freeze {frozen : Processor σ} {s' : Session σ} (h : p.freeze s = .ok frozen s') :
    frozen.isFrozen = true := by
  unfold freeze at h
  split at h
  · rename_i hp
    cases h
    exact hp
  · rcases ok_or_error (attachAll p.registrations) s with ⟨ts, s₁, hts⟩ | ⟨fault, s₁, hts⟩
    · rw [bind_of_ok hts] at h
      cases h
      rfl
    · rw [bind_of_error hts] at h
      cases h

/-- A run that does not wait, from its processor once that is frozen. -/
private theorem processSync_of_freeze {frozen : Processor σ} {s' : Session σ} (h : p.freeze s = .ok frozen s') :
    p.processSync s = (do
      let tree ← frozen.prepare
      frozen.finish (← transformNow tree (frozen.transformers.getD []))) s' := by
  rw [processSync, bind_of_ok h, prepare]
  simp only [runSync, freeze_of_isFrozen (isFrozen_of_freeze h), pure_bind, bind_assoc]

/-- A run that waits and is never cancelled, from its processor once that is frozen. -/
private theorem process_of_freeze {frozen : Processor σ} {s' : Session σ} (h : p.freeze s = .ok frozen s') :
    p.process (pure false) s = (do
      let tree ← frozen.prepare
      let (tree, stopped) ← transformUntil (pure false) tree (frozen.transformers.getD [])
      stopped.elim (frozen.finish tree) leave) s' := by
  rw [process, bind_of_ok h, prepare]
  simp only [runUntil, freeze_of_isFrozen (isFrozen_of_freeze h), pure_bind, bind_assoc, Bool.false_eq_true, if_false]
  refine congrFun (bind_congr fun _ => bind_congr fun _ => bind_congr fun _ => bind_congr fun r => ?_) s'
  rcases r with ⟨tree, _ | b⟩ <;> rfl

theorem finish_congr {tree : NodeId} (hwriter : q.writer = p.writer) : q.finish tree = p.finish tree := by
  rw [finish, finish, hwriter]

private theorem prepare_congr (hreader : q.reader = p.reader) : q.prepare = p.prepare := by
  simp only [prepare, parse, hreader]

private theorem process_answered (h : p.AnsweredBy q s) : q.process (pure false) s = p.processSync s := by
  unfold AnsweredBy at h
  rcases ok_or_error p.freeze s with ⟨frozen, s₁, hp⟩ | ⟨fault, s₁, hp⟩
  · rw [hp] at h
    obtain ⟨other, hq, hreader, hwriter, hanswered⟩ := h
    rw [process_of_freeze hq, processSync_of_freeze hp, prepare_congr hreader]
    rcases ok_or_error frozen.prepare s₁ with ⟨tree, s₂, hprepare⟩ | ⟨fault, s₂, hprepare⟩
    · rw [bind_of_ok hprepare, bind_of_ok hprepare]
      have hrun := transformUntil_answered (hanswered tree s₂ hprepare)
      rcases ok_or_error (transformNow tree (frozen.transformers.getD [])) s₂ with ⟨last, s₃, hnow⟩ | ⟨fault, s₃, hnow⟩
      · rw [bind_of_ok hnow] at hrun ⊢
        rw [bind_of_ok hrun]
        exact congrFun (finish_congr hwriter) s₃
      · rw [bind_of_error hnow] at hrun ⊢
        rw [bind_of_error hrun]
    · rw [bind_of_error hprepare, bind_of_error hprepare]
  · rw [hp] at h
    rw [process, processSync, bind_of_error h, bind_of_error hp]

private theorem answeredBy_of_prompt (h : p.Prompt s) : p.AnsweredBy p s := by
  unfold AnsweredBy
  rcases ok_or_error p.freeze s with ⟨frozen, s₁, hp⟩ | ⟨fault, s₁, hp⟩
  · rw [hp]
    exact ⟨frozen, rfl, rfl, rfl, fun tree s₂ hprepare => answeredFrom_of_promptFrom (h frozen s₁ hp tree s₂ hprepare)⟩
  · rw [hp]

/-- The two ways to run agree.  Where nothing has to be waited for, a run that waits and is never cancelled ends exactly
as one that does not: both succeed or both fail with the same fault, and they leave the same file, nodes, log and memory.
A run that waits ends so too when some of its transformers come to the same by handing back something to wait for. -/
theorem process_eq_processSync (p : Processor σ) (s : Session σ) :
    (p.Prompt s → p.process (pure false) s = p.processSync s) ∧
      ∀ q : Processor σ, p.AnsweredBy q s → q.process (pure false) s = p.processSync s :=
  ⟨fun h => process_answered (answeredBy_of_prompt h), fun _ h => process_answered h⟩

/-- Two steps, of which the first records a message and the second gives up on the file. -/
def remarkAndFail (hand : Stage Unit Item → Stage Unit (Handed Unit)) : Processor Unit where
  transformers := some
    [("remark", fun _ => hand do Stage.record { text := "seen" }; return .value .null),
      ("refuse", fun _ => hand (Stage.fail { text := "refused" }))]

/-- A file that the second of two steps gives up on, at once or after waiting. -/
theorem process_eq_processSync_fail :
    let s : Session Unit := { (default : Session Unit) with job := ⟨{ source := .text "# A" }, none⟩ }
    let now := remarkAndFail fun x => return .now (← x)
    let later := remarkAndFail fun x => return .later x (pure ())
    (now.Prompt s ∧ now.process (pure false) s = now.processSync s) ∧
      now.AnsweredBy later s ∧ later.process (pure false) s = now.processSync s := by
  intro s now later
  have hprompt : now.Prompt s := by
    rintro _ _ ⟨⟩ tree s'' -
    exact fun _ _ _ => trivial
  have hanswered : now.AnsweredBy later s :=
    ⟨later, rfl, rfl, rfl, fun tree s'' _ => ⟨rfl, rfl, fun _ _ _ => ⟨rfl, rfl⟩⟩⟩
  exact ⟨⟨hprompt, (process_eq_processSync now s).1 hprompt⟩, hanswered,
    (process_eq_processSync now s).2 later hanswered⟩

end Processor

end MarkdownTree
