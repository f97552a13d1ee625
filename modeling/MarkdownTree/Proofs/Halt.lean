import MarkdownTree.Proofs.Course
import MarkdownTree.Proofs.Encoding
import MarkdownTree.Proofs.Located
import MarkdownTree.Proofs.Mirror

/-!
# What is left of a run that stops

A run that stops early leaves its file as the last step left it.  Steps that do not assign the content, the result or
the tree of the file can only add messages (`Stage.Notes`), and what a run does between its steps adds the tree that goes
on, and, if the run is cancelled, one message in the end.  So all that is left can be told from how far the run has come
(`process_left`).  Readers and writers of Markdown are such steps, whatever they are set to (`decodes_markdown`,
`notes_markdown`).
-/

namespace MarkdownTree

variable {σ α β : Type}

namespace File

/-- The content of a file is a text, or the bytes of one. -/
def Says (f : File) (text : String) : Prop :=
  match f.source with
  | .text s => s = text
  | .bytes bs => f.encoding.encode? text.toList = some bs
  | .points _ => False

/-- The content of a file once it is decoded: the text that it says, and what it was if it says none. -/
inductive DecodesTo (f : File) : Source → Prop where
  | text {text : String} (h : f.Says text) : DecodesTo f (.text text)
  | refused (h : ∀ text, ¬f.Says text) : DecodesTo f f.source

/-- The content of the file as text, where it can be decoded. -/
def decoded (f : File) : Source :=
  match f.decode with
  | .ok text => .text text
  | .error _ => f.source

/-- Decoding gives the text that the content says, and fails if it says none. -/
theorem decode_eq_ok_iff {f : File} {text : String} : f.decode = .ok text ↔ f.Says text := by
  unfold decode Says
  cases f.source with
  | text s => simp
  | points ns => simp
  | bytes bs =>
    dsimp only
    rw [← Text.Encoding.decode_eq_ok_iff]
    cases f.encoding.decode bs with
    | error offset => simp
    | ok cs =>
      simp only [Except.ok.injEq]
      exact ⟨fun h => by rw [← h, String.toList_ofList], fun h => by rw [h, String.ofList_toList]⟩

private theorem decodesTo_iff {f : File} {source : Source} : f.DecodesTo source ↔ source = f.decoded := by
  have hdecoded : f.DecodesTo f.decoded := by
    unfold decoded
    cases h : f.decode with
    | ok text => exact .text (decode_eq_ok_iff.1 h)
    | error d =>
      refine .refused fun text hsays => ?_
      rw [decode_eq_ok_iff.2 hsays] at h
      cases h
  constructor
  · intro h
    cases h with
    | text hsays => rw [decoded, decode_eq_ok_iff.2 hsays]
    | refused hnone =>
      cases hdecoded' : f.decode with
      | ok text => exact absurd (decode_eq_ok_iff.1 hdecoded') (hnone text)
      | error d => rw [decoded, hdecoded']
  · rintro rfl
    exact hdecoded

end File

/-- The file has been decoded and may have got a tree. -/
def Job.read (j : Job) (tree : Option NodeId) : Job :=
  ⟨{ j.file with source := j.file.decoded }, tree⟩

/-- Content, result and tree are the same, and there may be more messages. -/
structure Job.Grows (j k : Job) : Prop where
  source : k.file.source = j.file.source
  result : k.file.result = j.file.result
  tree : k.tree = j.tree
  messages : j.file.messages <+: k.file.messages

private theorem Job.Grows.refl (j : Job) : j.Grows j :=
  ⟨rfl, rfl, rfl, List.prefix_rfl⟩

private theorem Job.Grows.trans {j k l : Job} (h : j.Grows k) (h' : k.Grows l) : j.Grows l :=
  ⟨h'.source.trans h.source, h'.result.trans h.result, h'.tree.trans h.tree, h.messages.trans h'.messages⟩

/-- The same tree on both sides. -/
private theorem Job.Grows.setTree {j k : Job} (h : j.Grows k) (tree : Option NodeId) :
    Job.Grows { j with tree } { k with tree } :=
  ⟨h.source, h.result, rfl, h.messages⟩

/-! ### Stages that only add messages -/

/-- The session that a stage leaves, whether it succeeds or fails. -/
def Stage.after (x : Stage σ α) (s : Session σ) : Session σ :=
  match x s with
  | .ok _ s' | .error _ s' => s'

namespace Stage

variable {x : Stage σ α} {s s' : Session σ}

private theorem after_of_ok {a : α} (h : x s = .ok a s') : after x s = s' := by
  rw [after, h]

private theorem after_of_error {fault : Fault} (h : x s = .error fault s') : after x s = s' := by
  rw [after, h]

/-- A stage that does not assign the content, the result or the tree of the file. -/
def Notes (x : Stage σ α) : Prop :=
  ∀ s : Session σ, s.job.Grows (after x s).job

private theorem notes_pure (a : α) : Notes (pure a : Stage σ α) :=
  fun s => .refl s.job

private theorem notes_throw (fault : Fault) : Notes (throw fault : Stage σ α) :=
  fun s => .refl s.job

private theorem notes_say (level : LogLevel) (logger : Logger) (text : String) :
    Notes (say level logger text : Stage σ Unit) :=
  fun s => .refl s.job

/-- One after the other; the second stage is one that the first can lead to. -/
private theorem notes_bind {f : α → Stage σ β} (hx : Notes x) (hf : ∀ s a s', x s = .ok a s' → Notes (f a)) :
    Notes (x >>= f) := by
  intro s
  have hfirst := hx s
  rcases Processor.ok_or_error x s with ⟨a, s', h⟩ | ⟨fault, s', h⟩
  · rw [after_of_ok h] at hfirst
    rw [after, Processor.bind_of_ok h]
    exact hfirst.trans (hf s a s' h s')
  · rw [after_of_error h] at hfirst
    rw [after, Processor.bind_of_error h]
    exact hfirst

private theorem notes_tryCatch {handle : Fault → Stage σ α} (hx : Notes x) (hhandle : ∀ fault, Notes (handle fault)) :
    Notes (tryCatch x handle) := by
  intro s
  have hfirst := hx s
  rcases Processor.ok_or_error x s with ⟨a, s', h⟩ | ⟨fault, s', h⟩
  · rw [after_of_ok h] at hfirst
    rwa [after_of_ok (Processor.tryCatch_of_ok h)]
  · rw [after_of_error h] at hfirst
    rw [after, Processor.tryCatch_of_error h]
    exact hfirst.trans (hhandle fault s')

end Stage

namespace Processor

open Stage

/-- A transformer that only adds messages to the file, as does what has to be waited for or let go of. -/
def OnlyNotes (t : Transformer σ) : Prop :=
  ∀ tree, Notes (t tree) ∧ ∀ s wait close s', t tree s = .ok (.later wait close) s' → Notes wait ∧ Notes close

/-- A reader that decodes the file, gives it a tree if it succeeds, and else only adds messages to it. -/
def Decodes (r : Reader σ) : Prop :=
  ∀ s : Session σ, ∃ source tree, s.job.file.DecodesTo source ∧
    Job.Grows ⟨{ s.job.file with source }, tree⟩ (after r.read s).job ∧
    (tree = s.job.tree ∨ tree.isSome = true ∧ ∃ s', r.read s = .ok () s')

/-- A way to run on which looking whether the run has been cancelled does nothing to the file. -/
def Way.Looks (w : Way σ) : Prop :=
  ∀ s : Session σ, (after w.stopped s).job = s.job

/-! ### Single steps -/

private theorem notes_guarded (name : String) {x : Stage σ α} (hx : Notes x) : Notes (guarded name x) := by
  refine notes_tryCatch hx fun fault => ?_
  have hwrap : Notes (do
      say .error ("Plugin '" ++ name ++ "' failed on " ++ pathText (← Stage.file).path)
      throw (.carrying (.transformer name fault)) : Stage σ α) := fun s => .refl s.job
  cases fault with
  | failure text => exact notes_throw _
  | _ => exact hwrap

/-- Calling a transformer, and waiting for what it hands back or letting go of it. -/
private theorem notes_call (w : Way σ) (name : String) {t : Transformer σ} (ht : OnlyNotes t) (tree : NodeId) :
    Notes (do w.await name (← guarded name (t tree)) : Stage σ Item) := by
  refine notes_bind (notes_guarded name (ht tree).1) fun s handed s' h => ?_
  cases handed with
  | now item => exact notes_pure item
  | later wait close =>
    obtain ⟨hwait, hclose⟩ : Notes wait ∧ Notes close := by
      rcases ok_or_error (t tree) s with ⟨handed, s₁, ht'⟩ | ⟨fault, s₁, ht'⟩
      · rw [guarded_of_ok name ht'] at h
        cases h
        exact (ht tree).2 s wait close s' ht'
      · obtain ⟨wrapped, s₂, hwrapped⟩ := guarded_throw name fault s₁
        rw [guarded_of_error name ht', hwrapped] at h
        cases h
    cases w with
    | prompt => exact notes_bind hclose fun _ _ _ _ => notes_throw _
    | waiting => exact notes_guarded name hwait

private theorem job_settle (name : String) (tree : NodeId) (item : Item) (s : Session σ) :
    (∃ next s', settle name tree item s = .ok next s' ∧ s'.job = { s.job with tree := some next }) ∨
      ∃ fault, settle name tree item s = .error fault s := by
  have hgraph : settle name tree item s = (do
      let verdict ← carrying (liftM (Verdict.ofItem s.graph (some name) item))
      setTree (verdict.apply tree)
      return verdict.apply tree : Stage σ NodeId) s := rfl
  rw [hgraph]
  cases Verdict.ofItem s.graph (some name) item with
  | ok verdict => exact .inl ⟨_, _, rfl, rfl⟩
  | error fault => exact .inr ⟨_, rfl⟩

/-- A step gives the tree that goes on, or fails and leaves the one that there was. -/
private theorem step_or_error (w : Way σ) (name : String) {t : Transformer σ} (ht : OnlyNotes t) (tree : NodeId)
    (s : Session σ) :
    (∃ next s', w.step name t tree s = .ok next s' ∧ Job.Grows { s.job with tree := some next } s'.job) ∨
      ∃ fault s', w.step name t tree s = .error fault s' ∧ s.job.Grows s'.job := by
  have hstep : w.step name t tree = (do
      let item ← (do announce name; w.await name (← guarded name (t tree)) : Stage σ Item)
      settle name tree item) := by
    simp only [Way.step, bind_assoc]
  have hitem : Notes (do announce name; w.await name (← guarded name (t tree)) : Stage σ Item) :=
    notes_bind (notes_say _ _ _) fun _ _ _ _ => notes_call w name ht tree
  rw [hstep]
  rcases ok_or_error (do announce name; w.await name (← guarded name (t tree)) : Stage σ Item) s with
    ⟨item, s₁, h⟩ | ⟨fault, s₁, h⟩
  · have hgrows := hitem s
    rw [after_of_ok h] at hgrows
    rw [bind_of_ok h]
    rcases job_settle name tree item s₁ with ⟨next, s', hsettle, hjob⟩ | ⟨fault, hsettle⟩
    · exact .inl ⟨next, s', hsettle, hjob ▸ hgrows.setTree (some next)⟩
    · exact .inr ⟨fault, s₁, hsettle, hgrows⟩
  · have hgrows := hitem s
    rw [after_of_error h] at hgrows
    rw [bind_of_error h]
    exact .inr ⟨fault, s₁, rfl, hgrows⟩

/-- Reading gives the file a tree, or fails and leaves the one that there was. -/
private theorem take_or_error {p : Processor σ} (hreader : Decodes p.reader) (s : Session σ) :
    (∃ tree s', p.take s = .ok tree s' ∧ (s.job.read (some tree)).Grows s'.job) ∨
      ∃ fault s', p.take s = .error fault s' ∧ (s.job.read s.job.tree).Grows s'.job := by
  obtain ⟨source, tree?, hsource, hgrows, htree?⟩ := hreader s
  obtain rfl := File.decodesTo_iff.1 hsource
  rcases ok_or_error p.reader.read s with ⟨u, s₁, h⟩ | ⟨fault, s₁, h⟩
  · rw [after_of_ok h] at hgrows
    have hparse := parse_of_ok h
    cases htree : s₁.job.tree with
    | some tree =>
      rw [htree] at hparse
      exact .inl ⟨tree, _, bind_of_ok hparse, hgrows.setTree (some tree)⟩
    | none =>
      rw [htree] at hparse
      -- The file has no tree now, so it had none before.
      have hnone : tree? = none := hgrows.tree.symm.trans htree
      rcases htree? with rfl | ⟨hsome, -⟩
      · exact .inr ⟨_, s₁, bind_of_error hparse, hgrows⟩
      · rw [hnone] at hsome
        cases hsome
  · rw [after_of_error h] at hgrows
    refine .inr ⟨_, s₁, bind_of_error (parse_of_error h), ?_⟩
    rcases htree? with rfl | ⟨-, s', hok⟩
    · exact hgrows
    · rw [h] at hok
      cases hok

/-! ### Whole runs -/

/-- The transformers that a run has come through. -/
def Progress.done : Progress σ → List (String × Transformer σ)
  | unread => []
  | passed done _ => done

/-- The file with what the steps of a run have given it so far. -/
def Progress.job : Progress σ → Job → Job
  | unread, j => j
  | passed _ tree, j => j.read (some tree)

/-- The messages that were recorded between two sessions. -/
def recorded (step : Session σ × Session σ) : List Diagnostic :=
  step.2.job.file.messages.drop step.1.job.file.messages.length

/-- The transformer, if any, that has been called last and not completed. -/
def Stop.called : Stop σ → List (String × Transformer σ)
  | failed name t _ => [(name, t)]
  | _ => []

/-- What the last message of a cancelled run says of the step that was next. -/
def closingText : Boundary → String
  | .parse => "Processing cancelled before parse"
  | .plugin name => "Processing cancelled before plugin '" ++ name ++ "'"
  | .print => "Processing cancelled before print"

/-- The message that a run leaves that stops, if it has been cancelled. -/
def Stop.closing (path : Option String) : Stop σ → List Diagnostic
  | cancelled next =>
    [{ text := closingText next, severity := .info, rule := some "cancelled", source := some "markpipe", path }]
  | _ => []

section

variable {p : Processor σ} {w : Way σ} {s s₁ s₂ left : Session σ} {progress : Progress σ} {stop : Stop σ}
  {history executed : List (Session σ × Session σ)}

private theorem recorded_eq (h : s₁.job.file.messages <+: s₂.job.file.messages) :
    s₂.job.file.messages = s₁.job.file.messages ++ recorded (s₁, s₂) :=
  (List.prefix_iff_eq_append.1 h).symm

private theorem job_stopped (hw : w.Looks) {b : Bool} (h : w.stopped s₁ = .ok b s₂) : s₂.job = s₁.job :=
  after_of_ok h ▸ hw s₁

private theorem Comes.job_unread (h : p.Comes w s .unread history s₁) : history = [] ∧ s₁.job = s.job := by
  obtain ⟨h⟩ := h
  cases h
  exact ⟨rfl, rfl⟩

private theorem Comes.history_ne_nil {done : List (String × Transformer σ)} {tree : NodeId}
    (h : p.Comes w s (.passed done tree) history s₁) : history ≠ [] := by
  cases h <;> simp

/-- As far as a run comes, the file has what the last step has given it. -/
private theorem Comes.grows (h : p.Comes w s progress history s₁) (hreader : Decodes p.reader)
    (hts : ∀ t ∈ progress.done, OnlyNotes t.2) (hw : w.Looks) :
    (progress.job s.job).Grows s₁.job ∧
      s₁.job.file.messages = s.job.file.messages ++ history.flatMap recorded := by
  induction h with
  | begun h =>
    cases h
    exact ⟨.refl _, by simp⟩
  | @read history tree s₁ s₂ s₃ h hgo htake =>
    obtain ⟨rfl, hjob⟩ := h.job_unread
    have hjob₂ : s₂.job = s.job := (job_stopped hw hgo).trans hjob
    rcases take_or_error hreader s₂ with ⟨tree', s', hok, hgrows⟩ | ⟨fault, s', herror, -⟩
    · cases hok.symm.trans htake
      have hmessages : s₂.job.file.messages <+: s₃.job.file.messages := hgrows.messages
      rw [hjob₂] at hgrows
      refine ⟨hgrows, ?_⟩
      rw [recorded_eq hmessages, hjob₂]
      simp
    · cases herror.symm.trans htake
  | @transformed history done name t tree next s₁ s₂ s₃ h hgo hstep ih =>
    obtain ⟨hgrows₁, hmessages₁⟩ := ih fun t ht => hts t (List.mem_append_left _ ht)
    have hjob₂ : s₂.job = s₁.job := job_stopped hw hgo
    have ht : OnlyNotes t := hts (name, t) (List.mem_append_right _ List.mem_cons_self)
    rcases step_or_error w name ht tree s₂ with ⟨next', s', hok, hgrows⟩ | ⟨fault, s', herror, -⟩
    · cases hok.symm.trans hstep
      have hmessages : s₂.job.file.messages <+: s₃.job.file.messages := hgrows.messages
      rw [hjob₂] at hgrows
      refine ⟨(hgrows₁.setTree (some next)).trans hgrows, ?_⟩
      rw [recorded_eq hmessages, hjob₂, hmessages₁]
      simp
    · cases herror.symm.trans hstep

private theorem job_leave (next : Boundary) (s : Session σ) : ∃ left, leave next s = .ok () left ∧
    left.job = { s.job with file := { s.job.file with
      messages := s.job.file.messages ++ (Stop.cancelled next : Stop σ).closing s.job.file.path } } := by
  refine ⟨_, rfl, ?_⟩
  cases next with
  | plugin name =>
    have htext : "Processing cancelled before " ++ ("plugin '" ++ name ++ "'") = closingText (.plugin name) := by
      rw [← String.append_assoc, ← String.append_assoc]
      rfl
    rw [Stop.closing, ← htext]
    rfl
  | _ => rfl

/-- What is left by the step, if any, that a run has begun when it stops. -/
private theorem Ends.grows (h : p.Ends w progress stop executed s₁ left) (hreader : Decodes p.reader)
    (hwriter : ∀ id, Notes (p.writer.write id)) (hts : ∀ t ∈ stop.called, OnlyNotes t.2) (hw : w.Looks) :
    left.job.file.result = s₁.job.file.result ∧
      left.job.file.source = (match stop with
        | .unread _ => s₁.job.file.decoded
        | _ => s₁.job.file.source) ∧
      left.job.tree = s₁.job.tree ∧
      left.job.file.messages =
        s₁.job.file.messages ++ executed.flatMap recorded ++ stop.closing left.job.file.path := by
  cases h with
  | cancelled h hleave =>
    obtain ⟨left', hok, hjob⟩ := job_leave _ _
    cases hok.symm.trans hleave
    rw [job_stopped hw h] at hjob
    simp [hjob]
  | untold h =>
    have hjob : left.job = s₁.job := after_of_error h ▸ hw s₁
    simp [hjob, Stop.closing]
  | @unread fault s₁ s₂ left hgo htake =>
    rcases take_or_error hreader s₂ with ⟨tree, s', hok, -⟩ | ⟨fault', s', herror, hgrows⟩
    · cases hok.symm.trans htake
    · cases herror.symm.trans htake
      have hmessages : s₂.job.file.messages <+: left.job.file.messages := hgrows.messages
      rw [job_stopped hw hgo] at hgrows
      refine ⟨hgrows.result, hgrows.source, hgrows.tree, ?_⟩
      rw [recorded_eq hmessages, job_stopped hw hgo]
      simp [Stop.closing]
  | @failed done name t tree fault s₁ s₂ left hgo hstep =>
    rcases step_or_error w name (hts (name, t) List.mem_cons_self) tree s₂ with
      ⟨next, s', hok, -⟩ | ⟨fault', s', herror, hgrows⟩
    · cases hok.symm.trans hstep
    · cases herror.symm.trans hstep
      have hmessages := recorded_eq hgrows.messages
      rw [job_stopped hw hgo] at hgrows hmessages
      exact ⟨hgrows.result, hgrows.source, hgrows.tree, by simp [hmessages, Stop.closing]⟩
  | @unprinted done tree fault s₁ s₂ left hgo hfinish =>
    obtain ⟨cause, hwrite, -⟩ := finish_eq_error.1 hfinish
    have hgrows := hwriter tree s₂
    rw [after_of_error hwrite] at hgrows
    have hmessages := recorded_eq hgrows.messages
    rw [job_stopped hw hgo] at hgrows hmessages
    exact ⟨hgrows.result, hgrows.source, hgrows.tree, by simp [hmessages, Stop.closing]⟩

end

/-! ### Reading and writing Markdown -/

/-- What reading Markdown does once the file is scanned. -/
private def readScanned (scanned : Except Fault (Tree Position) × File × List LogRecord) : Stage σ Unit := do
  editFile fun _ => scanned.2.1
  report scanned.2.2
  setTree (← load (← scanned.1))

private theorem read_markdown (settings : List Field) (s : Session σ) :
    (Reader.markdown settings : Reader σ).read s = readScanned (s.job.file.scan (.ofFields settings)) s :=
  rfl

private theorem scan_of_decode {f : File} {text : String} (o : ScanOptions) (h : f.decode = .ok text) :
    ∃ tree log, f.scan o = (.ok tree, { f with
      source := .text text, messages := f.messages ++ (Scan.scan o f.path text).warnings }, log) := by
  unfold File.scan
  rw [h]
  dsimp only
  rw [tree_scan]
  exact ⟨_, _, rfl⟩

theorem decodes_markdown (settings : List Field) : Decodes (Reader.markdown settings : Reader σ) := by
  intro s
  cases hdecode : s.job.file.decode with
  | error d =>
    have hread := read_markdown settings s
    unfold File.scan at hread
    rw [hdecode] at hread
    refine ⟨s.job.file.decoded, s.job.tree, File.decodesTo_iff.2 rfl, ?_, .inl rfl⟩
    rw [after_of_error hread]
    exact ⟨by simp [File.decoded, hdecode, File.record], rfl, rfl, List.prefix_append _ _⟩
  | ok text =>
    obtain ⟨tree, log, hscan⟩ := scan_of_decode (.ofFields settings) hdecode
    have hread := read_markdown settings s
    rw [hscan] at hread
    obtain ⟨s', id, hok, hjob⟩ : ∃ s' id, (Reader.markdown settings : Reader σ).read s = .ok () s' ∧ s'.job =
        ⟨{ s.job.file with source := .text text, messages := _ }, some id⟩ := ⟨_, _, hread, rfl⟩
    refine ⟨.text text, some id, .text (File.decode_eq_ok_iff.1 hdecode), ?_, .inr ⟨rfl, s', hok⟩⟩
    rw [after_of_ok hok, hjob]
    exact ⟨rfl, rfl, rfl, List.prefix_append _ _⟩

/-- Reading Markdown can only fail by giving up on the file. -/
theorem failure_of_read {settings : List Field} {s s' : Session σ} {fault : Fault}
    (h : (Reader.markdown settings : Reader σ).read s = .error fault s') : ∃ text, fault = .failure text := by
  rw [read_markdown] at h
  cases hdecode : s.job.file.decode with
  | error d =>
    unfold File.scan at h
    rw [hdecode] at h
    cases h
    exact ⟨d.text, rfl⟩
  | ok text =>
    obtain ⟨tree, log, hscan⟩ := scan_of_decode (.ofFields settings) hdecode
    rw [hscan] at h
    cases h

theorem notes_markdown (settings : List Field) (id : NodeId) :
    Notes ((Writer.markdown settings : Writer σ).write id) := by
  intro s
  obtain ⟨log, hlog⟩ := mirrors_write settings id s
  rw [after, hlog]
  cases written settings s.graph id <;> exact .refl s.job

/-! ### What is left -/

/-- What is left of a run that has stopped. -/
structure Left (p : Processor σ) (w : Way σ) (s : Session σ) (progress : Progress σ) (stop : Stop σ)
    (executed : List (Session σ × Session σ)) (left : Session σ) : Prop where
  result : left.job.file.result = s.job.file.result
  /-- The first step decodes the content, if it can be decoded. -/
  source : if executed.isEmpty then left.job.file.source = s.job.file.source
    else s.job.file.DecodesTo left.job.file.source
  /-- The tree is the one that goes on after the last step that has succeeded; only one more can have been begun. -/
  tree : left.job.tree = progress.tree?.or s.job.tree
  passes : ∃ history last, executed = history ++ last ∧ last.length ≤ 1 ∧ p.Passes w progress history
  messages : left.job.file.messages =
    s.job.file.messages ++ executed.flatMap recorded ++ stop.closing left.job.file.path

section

variable {p : Processor σ} {w : Way σ} {s left : Session σ} {progress : Progress σ} {stop : Stop σ}
  {executed : List (Session σ × Session σ)} {ts : List (String × Transformer σ)}

/-- A run calls transformers of its processor. -/
private theorem mem_of_fits (h : p.Fits progress stop) (hp : p.transformers = some ts) {t : String × Transformer σ}
    (ht : t ∈ progress.done ++ stop.called) : t ∈ ts := by
  cases progress with
  | unread => cases stop <;> first | exact h.elim | simp [Progress.done, Stop.called] at ht
  | passed done tree =>
    obtain ⟨rest, hrest⟩ : ∃ rest, p.transformers = some (done ++ stop.called ++ rest) := by
      cases stop with
      | unread => exact h.elim
      | cancelled next =>
        cases next with
        | parse => exact h.elim
        | plugin name =>
          obtain ⟨t, rest, h⟩ := h
          exact ⟨(name, t) :: rest, by simpa [Stop.called] using h⟩
        | print =>
          have h : p.transformers = some done := h
          exact ⟨[], by simpa [Stop.called] using h⟩
      | untold =>
        obtain ⟨rest, h⟩ := h
        exact ⟨rest, by simpa [Stop.called] using h⟩
      | failed name t =>
        obtain ⟨rest, h⟩ := h
        exact ⟨rest, by simpa [Stop.called] using h⟩
      | unprinted =>
        have h : p.transformers = some done := h
        exact ⟨[], by simpa [Stop.called] using h⟩
    cases hp.symm.trans hrest
    exact List.mem_append_left _ ht

private theorem left_of_halts (h : p.Halts w s progress stop executed left) (hp : p.transformers = some ts)
    (hreader : Decodes p.reader) (hwriter : ∀ id, Notes (p.writer.write id)) (hts : ∀ t ∈ ts, OnlyNotes t.2)
    (hw : w.Looks) : p.Left w s progress stop executed left := by
  obtain ⟨hfits, history, last, s₁, rfl, hcomes, hends⟩ := h
  have hpasses : ∃ before after, history ++ last = before ++ after ∧ after.length ≤ 1 ∧ p.Passes w progress before :=
    ⟨history, last, rfl, by cases hends <;> simp, hcomes.passes⟩
  have hcalled : ∀ t ∈ progress.done ++ stop.called, OnlyNotes t.2 := fun t ht => hts t (mem_of_fits hfits hp ht)
  obtain ⟨hgrows, hmessages⟩ := hcomes.grows hreader (fun t ht => hcalled t (List.mem_append_left _ ht)) hw
  obtain ⟨hresult, hsource, htree, hleft⟩ := hends.grows hreader hwriter
    (fun t ht => hcalled t (List.mem_append_right _ ht)) hw
  have hall : left.job.file.messages =
      s.job.file.messages ++ (history ++ last).flatMap recorded ++ stop.closing left.job.file.path := by
    rw [hleft, hmessages]
    simp
  cases progress with
  | unread =>
    obtain ⟨rfl, hjob⟩ := hcomes.job_unread
    rw [hjob] at hresult hsource htree
    refine ⟨hresult, ?_, htree, hpasses, hall⟩
    cases hends with
    | unread => exact File.decodesTo_iff.2 hsource
    | _ => exact hsource
  | passed done tree =>
    refine ⟨hresult.trans hgrows.result, ?_, htree.trans hgrows.tree, hpasses, hall⟩
    have hexecuted : (history ++ last).isEmpty = false := by
      simp [hcomes.history_ne_nil]
    rw [hexecuted]
    exact File.decodesTo_iff.2 (by cases hends <;> exact hsource.trans hgrows.source)

end

/-- Every run of a frozen processor finishes, or stops on the way and leaves the file as its last step left it.  It does
so whatever would have come later, and however the file would have been written if it was not to be. -/
theorem process_left {p : Processor σ} {ts : List (String × Transformer σ)} (hp : p.transformers = some ts)
    (hreader : Decodes p.reader) (hwriter : ∀ id, Notes (p.writer.write id)) (hts : ∀ t ∈ ts, OnlyNotes t.2)
    {w : Way σ} (hw : w.Looks) (s : Session σ) :
    (∃ s', w.process p s = .ok () s' ∧ p.Finishes w s s') ∨
      ∃ progress stop executed left, w.process p s = stop.outcome left ∧ p.Halts w s progress stop executed left ∧
        p.Left w s progress stop executed left ∧
        ∀ q : Processor σ, q.reader = p.reader → ((∃ fault, stop = .unprinted fault) → q.writer = p.writer) →
          q.Fits progress stop → w.process q s = stop.outcome left := by
  rcases exists_course hp w s with ⟨s', hfinish⟩ | ⟨progress, stop, executed, left, h⟩
  · exact .inl ⟨s', process_of_finishes hfinish, hfinish⟩
  · exact .inr ⟨progress, stop, executed, left, process_of_halts h, h, left_of_halts h hp hreader hwriter hts hw,
      fun q hq hqw hfits => process_of_halts (h.congr hq hqw hfits)⟩

private theorem Finishes.result {p : Processor σ} {w : Way σ} {s s' : Session σ} (h : p.Finishes w s s') :
    s'.job.file.result.isSome = true := by
  obtain ⟨ts, tree, history, s₁, s₂, -, -, -, hfinish⟩ := h
  obtain ⟨text, s₃, -, hrest⟩ := exists_of_bind hfinish
  cases hrest
  rfl

/-- A transformer that puts another root in the place of the tree, and has the run cancelled. -/
def replacing : Transformer Bool := fun _ => do
  Stage.remember fun _ => true
  return .now (.node (← Stage.add ⟨.root, [], .items [], none, .empty⟩))

private theorem onlyNotes_replacing : OnlyNotes replacing := by
  refine fun tree => ⟨fun s => .refl s.job, fun s wait close s' h => ?_⟩
  cases h

/-- A file of two bytes that make one character is read, and gets another tree; then the run is cancelled. -/
theorem process_left_cancelled :
    let p : Processor Bool := { transformers := some [("replace", replacing), ("omit", replacing)] }
    let s : Session Bool := { (default : Session Bool) with job := ⟨{ source := .bytes [0xC3, 0xA9] }, none⟩ }
    ∃ progress stop executed left, p.process Stage.memory s = .ok () left ∧
      p.Left (.waiting Stage.memory) s progress stop executed left ∧
      left.job.file.source = .text "é" ∧ left.job.tree = some 3 ∧ left.job.file.messages = [{
        text := "Processing cancelled before plugin 'omit'", severity := .info, rule := some "cancelled"
        source := some "markpipe" }] := by
  intro p s
  have hleft : (match p.process Stage.memory s with
      | .ok _ left => decide (left.job.file.result = none ∧ left.job.file.source = .text "é" ∧ left.job.tree = some 3 ∧
          left.job.file.messages = [{
            text := "Processing cancelled before plugin 'omit'", severity := .info, rule := some "cancelled"
            source := some "markpipe" }])
      | .error .. => false) = true := by decide +kernel
  have hts : ∀ t ∈ [("replace", replacing), ("omit", replacing)], OnlyNotes t.2 :=
    List.forall_mem_cons.2 ⟨onlyNotes_replacing, List.forall_mem_singleton.2 onlyNotes_replacing⟩
  rcases process_left (p := p) (w := .waiting Stage.memory) rfl (decodes_markdown _) (notes_markdown _) hts
    (fun _ => rfl) s with ⟨s', hok, hfinishes⟩ | ⟨progress, stop, executed, left, hrun, -, hhalted, -⟩
  · rw [show p.process Stage.memory s = _ from hok, decide_eq_true_eq] at hleft
    have hresult := hfinishes.result
    rw [hleft.1] at hresult
    cases hresult
  · have hrun : p.process Stage.memory s = stop.outcome left := hrun
    rw [hrun] at hleft
    cases stop with
    | cancelled next =>
      obtain ⟨-, hfacts⟩ := of_decide_eq_true hleft
      exact ⟨progress, .cancelled next, executed, left, hrun, hhalted, hfacts⟩
    | untold fault | unread fault | failed name t fault | unprinted fault => cases hleft

end Processor

end MarkdownTree
