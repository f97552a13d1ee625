import MarkdownTree.Proofs.Halt

/-!
# Faults that leave a run

A run that a fault ends gives the file to it, so that what is left of the file can be found from there.  Faults of the
reader and of transformers always have the file with them.  One that the printer runs into does only if it is orderly
(`process_escapes`): a tree that cannot be printed because of what a transformer has put into a field ends the run with
a fault that has no file (`carriesFile_damaging`).  Nothing is given to faults of looking whether the run has been
cancelled and of letting go of something unwaited.
-/

namespace MarkdownTree

variable {σ α : Type}

namespace Fault

variable {f : Fault}

private theorem carriesFile_withFile (h : f.isOrderly = true) : f.withFile.carriesFile = true := by
  unfold withFile
  cases hcarries : f.carriesFile
  · rw [h]
    rfl
  · simp [hcarries]

private theorem withFile_of_not_isOrderly (h : f.isOrderly = false) : f.withFile = f := by
  rw [withFile, h]
  rfl

end Fault

namespace Processor

open Stage

variable {s s' : Session σ} {fault : Fault}

/-! ### Steps whose faults have the file -/

private theorem carriesFile_of_guarded {name : String} {x : Stage σ α} (h : guarded name x s = .error fault s') :
    fault.carriesFile = true := by
  rcases ok_or_error x s with ⟨a, s₁, hx⟩ | ⟨cause, s₁, hx⟩
  · rw [guarded_of_ok name hx] at h
    cases h
  · rw [guarded_of_error name hx] at h
    cases cause <;> cases h <;> rfl

private theorem carriesFile_of_settle {name : String} {tree : NodeId} {item : Item}
    (h : settle name tree item s = .error fault s') : fault.carriesFile = true := by
  have hgraph : settle name tree item s = (do
      let verdict ← carrying (liftM (Verdict.ofItem s.graph (some name) item))
      setTree (verdict.apply tree)
      return verdict.apply tree : Stage σ NodeId) s := rfl
  rw [hgraph] at h
  cases hverdict : Verdict.ofItem s.graph (some name) item with
  | ok verdict =>
    rw [hverdict] at h
    cases h
  | error cause =>
    rw [hverdict] at h
    cases h
    -- What is no verdict is reported in an orderly way.
    have hcause : cause.isOrderly = true := by
      unfold Verdict.ofItem at hverdict
      split at hverdict
      · cases hverdict
      · split at hverdict <;> cases hverdict
        rfl
      · cases hverdict
        rfl
    exact Fault.carriesFile_withFile hcause

/-- Reading Markdown can only fail by giving up on the file. -/
private theorem carriesFile_of_take {p : Processor σ} {settings : List Field} (hreader : p.reader = .markdown settings)
    (h : p.take s = .error fault s') : fault.carriesFile = true := by
  rcases ok_or_error p.reader.read s with ⟨⟨⟩, s₁, hread⟩ | ⟨cause, s₁, hread⟩
  · have hparse := parse_of_ok hread
    cases htree : s₁.job.tree with
    | some tree =>
      rw [htree] at hparse
      cases (bind_of_ok hparse).symm.trans h
    | none =>
      rw [htree] at hparse
      cases (bind_of_error hparse).symm.trans h
      rfl
  · cases (bind_of_error (parse_of_error hread)).symm.trans h
    obtain ⟨text, rfl⟩ : ∃ text, cause = .failure text := by
      rw [hreader] at hread
      exact failure_of_read hread
    rfl

/-- The faults of a step that have no file are those of letting go of what a transformer has handed back. -/
private theorem carriesFile_of_step {w : Way σ} {name : String} {t : Transformer σ} {tree : NodeId}
    (h : w.step name t tree s = .error fault s') : fault.carriesFile = true ∨ w = .prompt ∧
      ∃ wait close s₁, (do announce name; t tree : Stage σ (Handed σ)) s = .ok (.later wait close) s₁ ∧
        close s₁ = .error fault s' := by
  obtain ⟨s₁, hannounce⟩ : ∃ s₁, announce name s = .ok () s₁ := ⟨_, rfl⟩
  rw [Way.step, bind_of_ok hannounce] at h
  rcases ok_or_error (guarded name (t tree)) s₁ with ⟨handed, s₂, hcall⟩ | ⟨cause, s₂, hcall⟩
  · rw [bind_of_ok hcall] at h
    rcases ok_or_error (w.await name handed) s₂ with ⟨item, s₃, hawait⟩ | ⟨cause, s₃, hawait⟩
    · rw [bind_of_ok hawait] at h
      exact .inl (carriesFile_of_settle h)
    · cases (bind_of_error hawait).symm.trans h
      cases handed with
      | now item => cases hawait
      | later wait close =>
        cases w with
        | waiting cancelled => exact .inl (carriesFile_of_guarded hawait)
        | prompt =>
          rcases ok_or_error close s₂ with ⟨⟨⟩, s₄, hclose⟩ | ⟨cause', s₄, hclose⟩
          · cases (bind_of_ok hclose).symm.trans hawait
            exact .inl rfl
          · cases (bind_of_error hclose).symm.trans hawait
            refine .inr ⟨rfl, wait, close, s₂, ?_, hclose⟩
            rw [bind_of_ok hannounce]
            exact ok_of_guarded hcall
  · cases (bind_of_error hcall).symm.trans h
    exact .inl (carriesFile_of_guarded hcall)

/-! ### Faults that have no file -/

/-- A run comes to a fault that it does not give the file to. -/
inductive Bare (p : Processor σ) (s : Session σ) (printing : List Field) : Way σ → Fault → Prop where
  /-- The tree that has passed all transformers cannot be printed, and the fault is not orderly. -/
  | unprinted {w : Way σ} {ts : List (String × Transformer σ)} {tree : NodeId}
      {history : List (Session σ × Session σ)} {s₁ s₂ : Session σ} {fault : Fault} (hp : p.transformers = some ts)
      (hcomes : p.Comes w s (.passed ts tree) history s₁) (hgo : w.stopped s₁ = .ok false s₂)
      (hwritten : written printing s₂.graph tree = .error fault) (hfault : fault.isOrderly = false) :
      Bare p s printing w fault
  /-- Something that would have to be waited for cannot be let go of. -/
  | unclosed {done rest : List (String × Transformer σ)} {name : String} {t : Transformer σ} {tree : NodeId}
      {history : List (Session σ × Session σ)} {s₁ s₂ left : Session σ} {wait : Stage σ Item} {close : Stage σ Unit}
      {fault : Fault} (hp : p.transformers = some (done ++ (name, t) :: rest))
      (hcomes : p.Comes .prompt s (.passed done tree) history s₁)
      (hcall : (do announce name; t tree : Stage σ (Handed σ)) s₁ = .ok (.later wait close) s₂)
      (hclose : close s₂ = .error fault left) : Bare p s printing .prompt fault
  /-- It cannot be told whether the run has been cancelled. -/
  | untold {w : Way σ} {progress : Progress σ} {history : List (Session σ × Session σ)} {s₁ left : Session σ}
      {fault : Fault} (hfits : p.Fits progress (.untold fault)) (hcomes : p.Comes w s progress history s₁)
      (htold : w.stopped s₁ = .error fault left) : Bare p s printing w fault

section

variable {p : Processor σ} {w : Way σ} {ts : List (String × Transformer σ)} {scanning printing : List Field}

private theorem carriesFile_or_bare (hp : p.transformers = some ts) (hreader : p.reader = .markdown scanning)
    (hwriter : p.writer = .markdown printing) {fault : Fault} {left : Session σ}
    (h : w.process p s = .error fault left) : fault.carriesFile = true ∨ p.Bare s printing w fault := by
  rcases exists_course hp w s with ⟨s', hfinish⟩ | ⟨progress, stop, executed, left', hhalts⟩
  · cases (process_of_finishes hfinish).symm.trans h
  · have houtcome := (process_of_halts hhalts).symm.trans h
    obtain ⟨hfits, history, last, s₁, -, hcomes, hends⟩ := hhalts
    cases hends with
    | cancelled => cases houtcome
    | untold htold =>
      cases houtcome
      exact .inr (.untold hfits hcomes htold)
    | unread hgo htake =>
      cases houtcome
      exact .inl (carriesFile_of_take hreader htake)
    | failed hgo hstep =>
      cases houtcome
      rcases carriesFile_of_step hstep with hcarries | ⟨rfl, wait, close, s₃, hcall, hclose⟩
      · exact .inl hcarries
      · cases hgo
        obtain ⟨rest, hp⟩ := hfits
        exact .inr (.unclosed hp hcomes hcall hclose)
    | @unprinted done tree _ _ s₂ _ hgo hfinish =>
      cases houtcome
      obtain ⟨cause, hwrite, rfl⟩ := finish_eq_error.1 hfinish
      cases horderly : cause.isOrderly with
      | true => exact .inl (Fault.carriesFile_withFile horderly)
      | false =>
        rw [Fault.withFile_of_not_isOrderly horderly]
        obtain ⟨log, hlog⟩ := mirrors_write printing tree s₂
        rw [hwriter, hlog] at hwrite
        cases hwritten : written printing s₂.graph tree with
        | ok text =>
          rw [hwritten] at hwrite
          cases hwrite
        | error cause' =>
          rw [hwritten] at hwrite
          cases hwrite
          exact .inr (.unprinted hfits hcomes hgo hwritten horderly)

private theorem process_of_bare (hwriter : p.writer = .markdown printing) {fault : Fault}
    (h : p.Bare s printing w fault) :
    ∃ left, w.process p s = .error fault left := by
  cases h with
  | @unprinted w ts tree history s₁ s₂ fault hp hcomes hgo hwritten hfault =>
    obtain ⟨log, hlog⟩ := mirrors_write printing tree s₂
    rw [hwritten, ← hwriter] at hlog
    have hfinish : p.finish tree s₂ = .error fault _ :=
      finish_eq_error.2 ⟨fault, hlog, (Fault.withFile_of_not_isOrderly hfault).symm⟩
    exact ⟨_, process_of_halts (hcomes.halts (.unprinted hgo hfinish) hp)⟩
  | @unclosed done rest name t tree history s₁ s₂ left wait close fault hp hcomes hcall hclose =>
    obtain ⟨s', hannounce⟩ : ∃ s', announce name s₁ = .ok () s' := ⟨_, rfl⟩
    rw [bind_of_ok hannounce] at hcall
    have hstep : Way.prompt.step name t tree s₁ = .error fault left := by
      rw [Way.step, bind_of_ok hannounce, bind_of_ok (guarded_of_ok name hcall)]
      exact bind_of_error (bind_of_error hclose)
    exact ⟨left, process_of_halts (hcomes.halts (.failed rfl hstep) ⟨rest, hp⟩)⟩
  | untold hfits hcomes htold => exact ⟨_, process_of_halts (hcomes.halts (.untold htold) hfits)⟩

/-- A fault that ends the run of a frozen processor of Markdown has the file with it, unless it is one of those that the
file is not given to, and each of those ends a run as it is. -/
theorem process_escapes (hp : p.transformers = some ts) (hreader : p.reader = .markdown scanning)
    (hwriter : p.writer = .markdown printing) (w : Way σ) (s : Session σ) :
    (∀ fault left, w.process p s = .error fault left → fault.carriesFile = true ∨ p.Bare s printing w fault) ∧
      ∀ fault, p.Bare s printing w fault → ∃ left, w.process p s = .error fault left :=
  ⟨fun _ _ h => carriesFile_or_bare hp hreader hwriter h, fun _ h => process_of_bare hwriter h⟩

end

/-- A session whose file is a text. -/
def textSession (text : String) : Session Unit :=
  { (default : Session Unit) with job := ⟨{ source := .text text }, none⟩ }

/-- A processor whose transformer adds a paragraph with a text whose value is a number. -/
def damaging : Processor Unit where
  transformers := some [("damage", fun tree => do
    let text ← Stage.add ⟨.text, [("value", .int 5)], .none, none, .empty⟩
    let paragraph ← Stage.add ⟨.paragraph, [], .items [.node text], none, .empty⟩
    Stage.edit fun g => g.modifyItems tree (· ++ [.node paragraph])
    return .now (.value .null))]

private theorem processSync_damaging : ∃ left, damaging.processSync (textSession "a") = .error .field left := by
  have hfails : (match damaging.processSync (textSession "a") with
      | .error .field _ => true
      | _ => false) = true := by decide +kernel
  split at hfails
  · exact ⟨_, ‹_›⟩
  · cases hfails

/-- The fault of a damaged tree is one that the file is not given to. -/
theorem process_escapes_damaging :
    damaging.Bare (textSession "a") Schema.printer.defaults .prompt .field := by
  obtain ⟨left, h⟩ := processSync_damaging
  have hescapes := (process_escapes (p := damaging) rfl rfl rfl .prompt (textSession "a")).1 .field left h
  exact hescapes.resolve_left Bool.false_ne_true

/-- A tree with a text whose value is a number ends a run with a fault that has no file. -/
theorem carriesFile_damaging :
    ∃ fault left, damaging.processSync (textSession "a") = .error fault left ∧ fault.carriesFile = false := by
  obtain ⟨left, h⟩ := processSync_damaging
  exact ⟨.field, left, h, rfl⟩

end Processor

end MarkdownTree
