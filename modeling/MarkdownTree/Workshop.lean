import MarkdownTree.Plugin.Builtin
import MarkdownTree.Processor.Run

/-!
# Workshops

What a program holds that puts processors together and runs them: a registry of plugins, a session to run in, and the
processors made so far by the names that it gave them. What the registry says goes into the log of the session.
-/

namespace MarkdownTree

/-- A registry, a session and processors with names; the newest processor of a name hides the others. -/
structure Workshop (σ : Type) where
  registry : Registry σ
  session : Session σ
  processors : List (String × Processor σ) := []

instance {σ : Type} [Inhabited σ] : Inhabited (Workshop σ) :=
  ⟨{ registry := default, session := default }⟩

/-- Work in a workshop. -/
abbrev Work (σ : Type) :=
  EStateM Fault (Workshop σ)

namespace Work

variable {σ : Type} {α : Type}

/-- Runs a stage in the session, which keeps what the stage did even if it fails. -/
def stage (x : Stage σ α) : Work σ α := do
  match x.run (← get).session with
  | .ok a session =>
    modify fun w => { w with session }
    return a
  | .error fault session =>
    modify fun w => { w with session }
    throw fault

/-- Moves what the registry has said into the log of the session. -/
def collect (registry : Registry σ) : Work σ Unit := do
  modify fun w => { w with registry := { registry with log := [] } }
  stage (Stage.report registry.log)

/-- Works with the registry. -/
def setup (x : Setup σ α) : Work σ α := do
  match x.run (← get).registry with
  | .ok a registry =>
    collect registry
    return a
  | .error fault registry =>
    collect registry
    throw fault

/-- Gives a processor a name. -/
def keep (name : String) (p : Processor σ) : Work σ Unit :=
  modify fun w => { w with processors := (name, p) :: w.processors }

/-- The processor of a name. -/
def find (name : String) : Work σ (Processor σ) := do
  match (← get).processors.lookup name with
  | some p => return p
  | none => throw .field

end Work

end MarkdownTree
