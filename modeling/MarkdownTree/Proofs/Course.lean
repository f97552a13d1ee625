import MarkdownTree.Proofs.Waiting

/-!
# The course of a run

The two ways to run go through the same steps: they read the file, pass its tree from transformer to transformer, and
write it.  They differ in what they do between two steps, and where something has to be waited for (`Way`).  A run comes
as far as its steps succeed (`Comes`), and there it stops, unless it has been through all of them (`exists_course`).  How
it stops depends on nothing that would have come later (`process_of_halts`).
-/

namespace MarkdownTree.Processor

variable {σ : Type}

/-- The ways to run: without waiting, or waiting where needed until the run is cancelled. -/
inductive Way (σ : Type) where
  | prompt
  | waiting (cancelled : Stage σ Bool)

namespace Way

/-- A whole run. -/
def process : Way σ → Processor σ → Stage σ Unit
  | prompt, p => p.processSync
  | waiting cancelled, p => p.process cancelled

/-- Whether the run has been cancelled. -/
def stopped : Way σ → Stage σ Bool
  | prompt => return false
  | waiting cancelled => cancelled

/-- What was handed back, if need be after waiting. -/
def await (w : Way σ) (name : String) : Handed σ → Stage σ Item
  | .now item => return item
  | .later wait close =>
    match w with
    | prompt => do
      close
      throw (.carrying (.synchrony name))
    | waiting _ => guarded name wait

/-- Calls a transformer on a tree and settles which tree goes on. -/
def step (w : Way σ) (name : String) (t : Transformer σ) (tree : NodeId) : Stage σ NodeId := do
  announce name
  settle name tree (← w.await name (← guarded name (t tree)))

/-- Passes a tree through transformers to the end of the run, or until it is cancelled. -/
def pass (w : Way σ) (p : Processor σ) (tree : NodeId) : List (String × Transformer σ) → Stage σ Unit
  | [] => do
    if ← w.stopped then leave .print else p.finish tree
  | (name, t) :: ts => do
    if ← w.stopped then leave (.plugin name)
    else w.pass p (← w.step name t tree) ts

end Way

/-- Reads the file and begins with its tree. -/
def take (p : Processor σ) : Stage σ NodeId := do
  let tree ← p.parse
  Stage.setTree tree
  return tree

/-! ### Faults that get the file -/

section

variable {α : Type} {x : Stage σ α} {s s' : Session σ}

private theorem carrying_eq_ok {a : α} : carrying x s = .ok a s' ↔ x s = .ok a s' := by
  rcases ok_or_error x s with ⟨b, s₁, h⟩ | ⟨fault, s₁, h⟩
  · rw [carrying, tryCatch_of_ok h, h]
  · rw [carrying, tryCatch_of_error h, h]
    exact iff_of_false nofun nofun

private theorem carrying_eq_error {fault : Fault} :
    carrying x s = .error fault s' ↔ ∃ cause, x s = .error cause s' ∧ fault = cause.withFile := by
  rcases ok_or_error x s with ⟨b, s₁, h⟩ | ⟨cause, s₁, h⟩
  · rw [carrying, tryCatch_of_ok h, h]
    exact iff_of_false nofun nofun
  · rw [carrying, tryCatch_of_error h, h]
    constructor
    · rintro ⟨⟩
      exact ⟨cause, rfl, rfl⟩
    · rintro ⟨_, ⟨⟩, rfl⟩
      rfl

/-- A file that could be read is parsed if it has a tree. -/
theorem parse_of_ok {p : Processor σ} {u : Unit} {s s' : Session σ} (h : p.reader.read s = .ok u s') :
    p.parse s = match s'.job.tree with
      | some tree => .ok tree s'
      | none => .error (.carrying (.parse .treeless)) s' := by
  have hread : (do
      p.reader.read
      match (← get).job.tree with
      | some tree => return tree
      | none => throw (.parse .treeless) : Stage σ NodeId) s = (match s'.job.tree with
        | some tree => return tree
        | none => throw (.parse .treeless) : Stage σ NodeId) s' := bind_of_ok h
  cases htree : s'.job.tree with
  | some tree =>
    rw [htree] at hread
    exact carrying_eq_ok.2 hread
  | none =>
    rw [htree] at hread
    exact carrying_eq_error.2 ⟨_, hread, rfl⟩

theorem parse_of_error {p : Processor σ} {fault : Fault} {s s' : Session σ} (h : p.reader.read s = .error fault s') :
    p.parse s = .error fault.withFile s' :=
  carrying_eq_error.2 ⟨fault, bind_of_error h, rfl⟩

/-- A file is finished unless it cannot be written. -/
theorem finish_eq_error {p : Processor σ} {tree : NodeId} {s s' : Session σ} {fault : Fault} :
    p.finish tree s = .error fault s' ↔ ∃ cause, p.writer.write tree s = .error cause s' ∧ fault = cause.withFile := by
  rw [← carrying_eq_error]
  rcases ok_or_error (carrying (p.writer.write tree)) s with ⟨text, s₁, h⟩ | ⟨cause, s₁, h⟩
  · rw [finish, bind_of_ok h, h]
    constructor <;> rintro ⟨⟩
  · rw [finish, bind_of_error h, h]
    constructor <;> rintro ⟨⟩ <;> rfl

end

/-! ### One run for both ways -/

private theorem pass_prompt (p : Processor σ) (tree : NodeId) (ts : List (String × Transformer σ)) :
    Way.prompt.pass p tree ts = (do p.finish (← transformNow tree ts)) := by
  induction ts generalizing tree with
  | nil => rfl
  | cons head ts ih =>
    obtain ⟨name, t⟩ := head
    simp only [Way.pass, Way.stopped, Way.step, transformNow, pure_bind, bind_assoc, Bool.false_eq_true, if_false, ih]
    refine bind_congr fun _ => bind_congr fun handed => ?_
    cases handed with
    | now item => simp only [Way.await, pure_bind, bind_assoc]
    | later wait close =>
      simp only [Way.await, bind_assoc]
      rfl

/-- What a run that waits does with the tree that it has reached: it finishes the file unless it has been cancelled. -/
def conclude (p : Processor σ) (reached : NodeId × Option Boundary) : Stage σ Unit :=
  match reached.2 with
  | some next => leave next
  | none => p.finish reached.1

private theorem pass_waiting (cancelled : Stage σ Bool) (p : Processor σ) (tree : NodeId)
    (ts : List (String × Transformer σ)) :
    (Way.waiting cancelled).pass p tree ts = transformUntil cancelled tree ts >>= p.conclude := by
  induction ts generalizing tree with
  | nil =>
    simp only [Way.pass, Way.stopped, transformUntil, bind_assoc, pure_bind]
    refine bind_congr fun stopped => ?_
    cases stopped <;> rfl
  | cons head ts ih =>
    obtain ⟨name, t⟩ := head
    simp only [Way.pass, Way.stopped, Way.step, transformUntil, bind_assoc, ih]
    refine bind_congr fun stopped => ?_
    cases stopped with
    | true => rfl
    | false =>
      simp only [Bool.false_eq_true, if_false, bind_assoc]
      refine bind_congr fun _ => bind_congr fun handed => ?_
      cases handed <;> simp only [Way.await, pure_bind, bind_assoc]

/-- The run of a frozen processor, whichever way. -/
private theorem process_eq {p : Processor σ} {ts : List (String × Transformer σ)} (hp : p.transformers = some ts)
    (w : Way σ) :
    w.process p = (do
      begin
      if ← w.stopped then leave .parse
      else w.pass p (← p.take) ts) := by
  have hfrozen : p.isFrozen = true := by rw [isFrozen, hp]; rfl
  cases w with
  | prompt =>
    simp only [Way.process, processSync, runSync, freeze_of_isFrozen hfrozen, pass_prompt, take, Way.stopped, hp,
      Option.getD_some, pure_bind, bind_assoc, Bool.false_eq_true, if_false]
  | waiting cancelled =>
    simp only [Way.process, process, runUntil, freeze_of_isFrozen hfrozen, pass_waiting, take, Way.stopped, hp,
      Option.getD_some, pure_bind, bind_assoc]
    rfl

/-! ### How far a run comes -/

/-- How far a run has come: the file is not read yet, or its tree has passed some transformers. -/
inductive Progress (σ : Type) where
  | unread
  | passed (done : List (String × Transformer σ)) (tree : NodeId)

/-- The tree that the last step has given. -/
def Progress.tree? : Progress σ → Option NodeId
  | unread => none
  | passed _ tree => some tree

/-- A run comes so far and to a session: the steps up to there succeed, one after the other, and the run is not
cancelled between them.  The history has the sessions before and after each step. -/
inductive Comes (p : Processor σ) (w : Way σ) (s : Session σ) :
    Progress σ → List (Session σ × Session σ) → Session σ → Prop where
  | begun {s₁ : Session σ} (h : begin s = .ok () s₁) : Comes p w s .unread [] s₁
  | read {history : List (Session σ × Session σ)} {tree : NodeId} {s₁ s₂ s₃ : Session σ}
      (h : Comes p w s .unread history s₁) (hgo : w.stopped s₁ = .ok false s₂) (htake : p.take s₂ = .ok tree s₃) :
      Comes p w s (.passed [] tree) (history ++ [(s₂, s₃)]) s₃
  | transformed {history : List (Session σ × Session σ)} {done : List (String × Transformer σ)} {name : String}
      {t : Transformer σ} {tree next : NodeId} {s₁ s₂ s₃ : Session σ} (h : Comes p w s (.passed done tree) history s₁)
      (hgo : w.stopped s₁ = .ok false s₂) (hstep : w.step name t tree s₂ = .ok next s₃) :
      Comes p w s (.passed (done ++ [(name, t)]) next) (history ++ [(s₂, s₃)]) s₃

/-- The run goes through all steps, the last of which writes the file. -/
def Finishes (p : Processor σ) (w : Way σ) (s s' : Session σ) : Prop :=
  ∃ ts tree history s₁ s₂, p.transformers = some ts ∧ p.Comes w s (.passed ts tree) history s₁ ∧
    w.stopped s₁ = .ok false s₂ ∧ p.finish tree s₂ = .ok () s'

/-- Why a run stops early. -/
inductive Stop (σ : Type) where
  | cancelled (next : Boundary)
  /-- It cannot be told whether the run has been cancelled. -/
  | untold (fault : Fault)
  | unread (fault : Fault)
  | failed (name : String) (t : Transformer σ) (fault : Fault)
  | unprinted (fault : Fault)

/-- How a run ends that stops, with the session that it leaves. -/
def Stop.outcome (left : Session σ) : Stop σ → EStateM.Result Fault (Session σ) Unit
  | cancelled _ => .ok () left
  | untold fault | unread fault | failed _ _ fault | unprinted fault => .error fault left

/-- A run that has come so far stops, and leaves a session.  Of the last step, if one has been begun, there are the
sessions before and after. -/
inductive Ends (p : Processor σ) (w : Way σ) :
    Progress σ → Stop σ → List (Session σ × Session σ) → Session σ → Session σ → Prop where
  | cancelled {progress : Progress σ} {next : Boundary} {s₁ s₂ left : Session σ} (h : w.stopped s₁ = .ok true s₂)
      (hleave : leave next s₂ = .ok () left) : Ends p w progress (.cancelled next) [] s₁ left
  | untold {progress : Progress σ} {fault : Fault} {s₁ left : Session σ} (h : w.stopped s₁ = .error fault left) :
      Ends p w progress (.untold fault) [] s₁ left
  | unread {fault : Fault} {s₁ s₂ left : Session σ} (hgo : w.stopped s₁ = .ok false s₂)
      (htake : p.take s₂ = .error fault left) : Ends p w .unread (.unread fault) [(s₂, left)] s₁ left
  | failed {done : List (String × Transformer σ)} {name : String} {t : Transformer σ} {tree : NodeId} {fault : Fault}
      {s₁ s₂ left : Session σ} (hgo : w.stopped s₁ = .ok false s₂) (hstep : w.step name t tree s₂ = .error fault left) :
      Ends p w (.passed done tree) (.failed name t fault) [(s₂, left)] s₁ left
  | unprinted {done : List (String × Transformer σ)} {tree : NodeId} {fault : Fault} {s₁ s₂ left : Session σ}
      (hgo : w.stopped s₁ = .ok false s₂) (hfinish : p.finish tree s₂ = .error fault left) :
      Ends p w (.passed done tree) (.unprinted fault) [(s₂, left)] s₁ left

/-- The processor has the transformers with which a run comes so far and can stop so.  Those that come later can be any,
and one that a cancelled run would have called next as well, but for its name. -/
def Fits (p : Processor σ) : Progress σ → Stop σ → Prop
  | .unread, .cancelled next => next = .parse ∧ p.isFrozen = true
  | .unread, .untold _ | .unread, .unread _ => p.isFrozen = true
  | .passed done _, .cancelled (.plugin name) => ∃ t rest, p.transformers = some (done ++ (name, t) :: rest)
  | .passed done _, .untold _ => ∃ rest, p.transformers = some (done ++ rest)
  | .passed done _, .failed name t _ => ∃ rest, p.transformers = some (done ++ (name, t) :: rest)
  | .passed done _, .cancelled .print | .passed done _, .unprinted _ => p.transformers = some done
  | _, _ => False

/-- The run comes so far, where it stops and leaves a session; `executed` has the sessions before and after each step
that has been begun. -/
def Halts (p : Processor σ) (w : Way σ) (s : Session σ) (progress : Progress σ) (stop : Stop σ)
    (executed : List (Session σ × Session σ)) (left : Session σ) : Prop :=
  p.Fits progress stop ∧ ∃ history last s₁, executed = history ++ last ∧ p.Comes w s progress history s₁ ∧
    p.Ends w progress stop last s₁ left

variable {p q : Processor σ} {w : Way σ} {s s₁ s₂ left : Session σ} {progress : Progress σ} {stop : Stop σ}
  {history executed : List (Session σ × Session σ)} {done rest ts : List (String × Transformer σ)} {tree : NodeId}

/-! ### What a run depends on -/

private theorem take_congr (hreader : q.reader = p.reader) : q.take = p.take := by
  simp only [take, parse, hreader]

/-- How far a run comes depends on the transformers that it comes to. -/
private theorem Comes.congr (h : p.Comes w s progress history s₁) (hreader : q.reader = p.reader) :
    q.Comes w s progress history s₁ := by
  induction h with
  | begun h => exact .begun h
  | read _ hgo htake ih => exact .read ih hgo ((take_congr hreader).symm ▸ htake)
  | transformed _ hgo hstep ih => exact .transformed ih hgo hstep

private theorem Ends.congr (h : p.Ends w progress stop executed s₁ left) (hreader : q.reader = p.reader)
    (hwriter : (∃ fault, stop = .unprinted fault) → q.writer = p.writer) : q.Ends w progress stop executed s₁ left := by
  cases h with
  | cancelled h hleave => exact .cancelled h hleave
  | untold h => exact .untold h
  | unread hgo htake => exact .unread hgo ((take_congr hreader).symm ▸ htake)
  | failed hgo hstep => exact .failed hgo hstep
  | unprinted hgo hfinish =>
    rw [← finish_congr (hwriter ⟨_, rfl⟩)] at hfinish
    exact .unprinted hgo hfinish

/-- A run that has begun goes on from the session that it has come to. -/
private theorem Comes.process_unread (h : p.Comes w s .unread history s₁) (hp : p.transformers = some ts) :
    w.process p s = (do
      if ← w.stopped then leave .parse
      else w.pass p (← p.take) ts) s₁ := by
  obtain ⟨hbegin⟩ := h
  rw [process_eq hp, bind_of_ok hbegin]

/-- A run that has passed some transformers goes on with the others. -/
private theorem Comes.process_passed (h : p.Comes w s (.passed done tree) history s₁)
    (hp : p.transformers = some (done ++ rest)) : w.process p s = w.pass p tree rest s₁ := by
  generalize hprogress : Progress.passed done tree = progress at h
  induction h generalizing done tree rest with
  | begun => cases hprogress
  | read h hgo htake =>
    cases hprogress
    rw [h.process_unread hp, bind_of_ok hgo]
    exact bind_of_ok htake
  | @transformed _ before name t _ _ _ _ _ h hgo hstep ih =>
    cases hprogress
    have hp' : p.transformers = some (before ++ (name, t) :: rest) := by simpa using hp
    rw [ih hp' rfl, Way.pass, bind_of_ok hgo]
    exact bind_of_ok hstep

/-- A run that comes so far and stops is over. -/
theorem process_of_halts (h : p.Halts w s progress stop executed left) : w.process p s = stop.outcome left := by
  obtain ⟨hfits, history, last, s₁, -, hcomes, hends⟩ := h
  cases progress with
  | unread =>
    obtain ⟨ts, hp⟩ : ∃ ts, p.transformers = some ts := by
      cases hends <;> simp_all [Fits, isFrozen, Option.isSome_iff_exists]
    rw [hcomes.process_unread hp]
    cases hends with
    | cancelled h hleave =>
      rw [bind_of_ok h, hfits.1.symm]
      exact hleave
    | untold h => exact bind_of_error h
    | unread hgo htake =>
      rw [bind_of_ok hgo]
      exact bind_of_error htake
  | passed done tree =>
    cases hends with
    | @cancelled _ next _ _ _ h hleave =>
      cases next with
      | parse => exact hfits.elim
      | plugin name =>
        obtain ⟨t, rest, hp⟩ := hfits
        rw [hcomes.process_passed hp, Way.pass, bind_of_ok h]
        exact hleave
      | print =>
        rw [hcomes.process_passed (hfits.trans (by rw [List.append_nil])), Way.pass, bind_of_ok h]
        exact hleave
    | untold h =>
      obtain ⟨rest, hp⟩ := hfits
      rw [hcomes.process_passed hp]
      cases rest <;> exact bind_of_error h
    | failed hgo hstep =>
      obtain ⟨rest, hp⟩ := hfits
      rw [hcomes.process_passed hp, Way.pass, bind_of_ok hgo]
      exact bind_of_error hstep
    | unprinted hgo hfinish =>
      rw [hcomes.process_passed (hfits.trans (by rw [List.append_nil])), Way.pass, bind_of_ok hgo]
      exact hfinish

/-- How a run stops depends on nothing that would have come later. -/
theorem Halts.congr (h : p.Halts w s progress stop executed left) (hreader : q.reader = p.reader)
    (hwriter : (∃ fault, stop = .unprinted fault) → q.writer = p.writer) (hfits : q.Fits progress stop) :
    q.Halts w s progress stop executed left := by
  obtain ⟨-, history, last, s₁, hexecuted, hcomes, hends⟩ := h
  exact ⟨hfits, history, last, s₁, hexecuted, hcomes.congr hreader, hends.congr hreader hwriter⟩

/-! ### Every run finishes or stops -/

theorem Comes.halts (h : p.Comes w s progress history s₁) (hends : p.Ends w progress stop executed s₁ left)
    (hfits : p.Fits progress stop) : p.Halts w s progress stop (history ++ executed) left :=
  ⟨hfits, history, executed, s₁, rfl, h, hends⟩

/-- A run that has come to some transformers goes through all of them or stops on the way. -/
private theorem Comes.finishes_or_halts (h : p.Comes w s (.passed done tree) history s₁)
    (hp : p.transformers = some (done ++ rest)) :
    (∃ s', p.Finishes w s s') ∨ ∃ progress stop executed left, p.Halts w s progress stop executed left := by
  induction rest generalizing done tree history s₁ with
  | nil =>
    have hdone : p.transformers = some done := by rw [hp, List.append_nil]
    rcases ok_or_error w.stopped s₁ with ⟨_ | _, s₂, hstopped⟩ | ⟨fault, left, hstopped⟩
    · rcases ok_or_error (p.finish tree) s₂ with ⟨⟨⟩, s', hfinish⟩ | ⟨fault, left, hfinish⟩
      · exact .inl ⟨s', _, _, _, _, _, hdone, h, hstopped, hfinish⟩
      · exact .inr ⟨_, _, _, _, h.halts (.unprinted hstopped hfinish) hdone⟩
    · have hends : p.Ends w (.passed done tree) (.cancelled .print) [] s₁ _ := .cancelled hstopped rfl
      exact .inr ⟨_, _, _, _, h.halts hends hdone⟩
    · exact .inr ⟨_, _, _, _, h.halts (.untold hstopped) ⟨[], hp⟩⟩
  | cons head rest ih =>
    obtain ⟨name, t⟩ := head
    rcases ok_or_error w.stopped s₁ with ⟨_ | _, s₂, hstopped⟩ | ⟨fault, left, hstopped⟩
    · rcases ok_or_error (w.step name t tree) s₂ with ⟨next, s₃, hstep⟩ | ⟨fault, left, hstep⟩
      · exact ih (.transformed h hstopped hstep) (by simpa using hp)
      · exact .inr ⟨_, _, _, _, h.halts (.failed hstopped hstep) ⟨rest, hp⟩⟩
    · have hends : p.Ends w (.passed done tree) (.cancelled (.plugin name)) [] s₁ _ := .cancelled hstopped rfl
      exact .inr ⟨_, _, _, _, h.halts hends ⟨t, rest, hp⟩⟩
    · exact .inr ⟨_, _, _, _, h.halts (.untold hstopped) ⟨_, hp⟩⟩

/-- Every run finishes or stops on the way. -/
theorem exists_course (hp : p.transformers = some ts) (w : Way σ) (s : Session σ) :
    (∃ s', p.Finishes w s s') ∨ ∃ progress stop executed left, p.Halts w s progress stop executed left := by
  have hfrozen : p.isFrozen = true := by rw [isFrozen, hp]; rfl
  obtain ⟨s₁, hbegin⟩ : ∃ s₁, begin s = .ok () s₁ := ⟨_, rfl⟩
  have hbegun : p.Comes w s .unread [] s₁ := .begun hbegin
  rcases ok_or_error w.stopped s₁ with ⟨_ | _, s₂, hstopped⟩ | ⟨fault, left, hstopped⟩
  · rcases ok_or_error p.take s₂ with ⟨tree, s₃, htake⟩ | ⟨fault, left, htake⟩
    · exact Comes.finishes_or_halts (.read hbegun hstopped htake) hp
    · exact .inr ⟨_, _, _, _, hbegun.halts (.unread hstopped htake) hfrozen⟩
  · have hends : p.Ends w .unread (.cancelled .parse) [] s₁ _ := .cancelled hstopped rfl
    exact .inr ⟨_, _, _, _, hbegun.halts hends ⟨rfl, hfrozen⟩⟩
  · exact .inr ⟨_, _, _, _, hbegun.halts (.untold hstopped) hfrozen⟩

theorem process_of_finishes {s' : Session σ} (h : p.Finishes w s s') : w.process p s = .ok () s' := by
  obtain ⟨ts, tree, history, s₁, s₂, hp, hcomes, hgo, hfinish⟩ := h
  rw [hcomes.process_passed (hp.trans (by rw [List.append_nil])), Way.pass, bind_of_ok hgo]
  exact hfinish

/-! ### The trees that a run passes on -/

/-- What a transformer hands back on a tree: at once, or when it has been waited for. -/
inductive Way.Gives : Way σ → Transformer σ → NodeId → Session σ → Item → Session σ → Prop where
  | now {w : Way σ} {t : Transformer σ} {tree : NodeId} {item : Item} {s s' : Session σ}
      (h : t tree s = .ok (.now item) s') : Gives w t tree s item s'
  | later {cancelled : Stage σ Bool} {t : Transformer σ} {tree : NodeId} {item : Item} {wait : Stage σ Item}
      {close : Stage σ Unit} {s s₁ s' : Session σ} (h : t tree s = .ok (.later wait close) s₁)
      (hwait : wait s₁ = .ok item s') : Gives (.waiting cancelled) t tree s item s'

/-- The tree that goes on after a transformer: the one that it was called on if it hands nothing back, and a root that
it hands back. -/
inductive GoesOn (g : Graph) (tree : NodeId) : Item → NodeId → Prop where
  | kept : GoesOn g tree (.value .null) tree
  | replaced {root : NodeId} (h : g.kind? root = some .root) : GoesOn g tree (.node root) root

/-- How a run passes trees on: reading gives the file a tree, the first transformer is called on this one, and each of
the others on the tree that goes on after the one before it.  The history has the sessions before and after each step. -/
inductive Passes (p : Processor σ) (w : Way σ) : Progress σ → List (Session σ × Session σ) → Prop where
  | unread : Passes p w .unread []
  | read {tree : NodeId} {s s' : Session σ} (h : p.reader.read s = .ok () s') (htree : s'.job.tree = some tree) :
      Passes p w (.passed [] tree) [(s, s')]
  | transformed {history : List (Session σ × Session σ)} {done : List (String × Transformer σ)} {name : String}
      {t : Transformer σ} {tree next : NodeId} {item : Item} {s s' : Session σ}
      (h : Passes p w (.passed done tree) history)
      (hgives : w.Gives t tree
        { s with log := s.log ++ [⟨.debug, .processor, "Running plugin '" ++ name ++ "'", false⟩] } item s')
      (hnext : GoesOn s'.graph tree item next) : Passes p w (.passed (done ++ [(name, t)]) next)
        (history ++ [(s, { s' with job := { s'.job with tree := some next } })])

/-- A file that has been taken has the tree that reading has given it. -/
private theorem read_of_take {s' : Session σ} (h : p.take s = .ok tree s') :
    p.reader.read s = .ok () s' ∧ s'.job.tree = some tree := by
  obtain ⟨tree', s₁, hparse, hset⟩ := exists_of_bind h
  rcases ok_or_error p.reader.read s with ⟨u, s₂, hread⟩ | ⟨fault, s₂, hread⟩
  · rw [parse_of_ok hread] at hparse
    cases htree : s₂.job.tree with
    | none =>
      rw [htree] at hparse
      cases hparse
    | some tree₂ =>
      rw [htree] at hparse
      cases hparse
      -- The file has got this tree already.
      have hsame : ({ s₁ with job := { s₁.job with tree := some tree' } } : Session σ) = s₁ := by rw [← htree]
      have hset : (.ok tree' { s₁ with job := { s₁.job with tree := some tree' } } :
        EStateM.Result Fault (Session σ) NodeId) = .ok tree s' := hset
      rw [hsame] at hset
      cases hset
      exact ⟨hread, htree⟩
  · rw [parse_of_error hread] at hparse
    cases hparse

private theorem Way.gives_of_await {name : String} {t : Transformer σ} {handed : Handed σ} {item : Item}
    {s' : Session σ}
    (h : t tree s = .ok handed s₁) (hawait : w.await name handed s₁ = .ok item s') : w.Gives t tree s item s' := by
  cases handed with
  | now item =>
    cases hawait
    exact .now h
  | later wait close =>
    cases w with
    | prompt =>
      obtain ⟨_, s₂, -, hthrow⟩ := exists_of_bind hawait
      cases hthrow
    | waiting cancelled => exact .later h (ok_of_guarded hawait)

private theorem goesOn_of_settle {name : String} {item : Item} {next : NodeId} {s' : Session σ}
    (h : settle name tree item s = .ok next s') :
    GoesOn s.graph tree item next ∧ s' = { s with job := { s.job with tree := some next } } := by
  have hgraph : settle name tree item s = (do
      let verdict ← carrying (liftM (Verdict.ofItem s.graph (some name) item))
      Stage.setTree (verdict.apply tree)
      return verdict.apply tree : Stage σ NodeId) s := rfl
  rw [hgraph] at h
  cases hverdict : Verdict.ofItem s.graph (some name) item with
  | error fault =>
    rw [hverdict] at h
    cases h
  | ok verdict =>
    rw [hverdict] at h
    cases h
    refine ⟨?_, rfl⟩
    unfold Verdict.ofItem at hverdict
    split at hverdict
    · cases hverdict
      exact .kept
    · split at hverdict
      · rename_i hroot
        cases hverdict
        exact .replaced hroot
      · cases hverdict
    · cases hverdict

/-- A run passes on trees as far as it comes. -/
theorem Comes.passes (h : p.Comes w s progress history s₁) : p.Passes w progress history := by
  induction h with
  | begun => exact .unread
  | read h _ htake =>
    obtain ⟨hread, htree⟩ := read_of_take htake
    cases h
    exact .read hread htree
  | transformed _ _ hstep ih =>
    obtain ⟨_, s₁, hannounce, hstep⟩ := exists_of_bind hstep
    obtain ⟨handed, s₂, hcall, hstep⟩ := exists_of_bind hstep
    obtain ⟨item, s₃, hawait, hsettle⟩ := exists_of_bind hstep
    cases hannounce
    obtain ⟨hnext, rfl⟩ := goesOn_of_settle hsettle
    exact .transformed ih (Way.gives_of_await (ok_of_guarded hcall) hawait) hnext

end MarkdownTree.Processor
