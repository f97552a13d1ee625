import MarkdownTree.Options
import MarkdownTree.Plugin.Registry
import MarkdownTree.Print.Printer
import MarkdownTree.Scan.File

/-!
# Processors

A reader, a chain of plugins and a writer put together. Processors are values: adding a plugin gives another processor,
and freezing one gives a copy whose plugins have been attached, each of them once.
-/

namespace MarkdownTree

/-- How files are read: reading gives the file of a session a tree. -/
structure Reader (σ : Type) where
  literal : String
  read : Stage σ Unit

/-- How trees are written. -/
structure Writer (σ : Type) where
  literal : String
  printer : Print.Printer (Stage σ)

variable {σ : Type}

/-- The reader of Markdown with the given settings. -/
def Reader.markdown (settings : List Field) : Reader σ where
  literal := Schema.scanner.ownerLiteral settings
  read := do
    let (outcome, file, log) := (← Stage.file).scan (.ofFields settings)
    Stage.editFile fun _ => file
    Stage.report log
    Stage.setTree (← Stage.load (← outcome))

/-- What a remark of a printer says. -/
def Print.Remark.text : Print.Remark → String
  | .localChoice emphasis => "Keeping local delimiter choice for " ++ toString emphasis ++ " emphasis nodes"
  | .notIntact printed => "No delimiter assignment scans back intact for " ++ Text.quote printed

/-- What writers say goes to their logger. -/
def Writer.say (text : String) : Stage σ Unit :=
  Stage.say .debug .printer text

/-- The writer of Markdown with the given settings and ways of printing. -/
def Writer.markdown (settings : List Field)
    (custom : Kind → Option (Print.Scene → Print.Surroundings → List Field → Stage σ (List Char)) := fun _ => none) :
    Writer σ where
  literal := Schema.printer.ownerLiteral settings
  printer := ⟨.ofFields settings, custom, fun remark => say remark.text⟩

/-- The text of the tree below a root; the line feed at its end is not counted as printed. -/
def Writer.write (w : Writer σ) (id : NodeId) : Stage σ String := do
  let g ← Stage.graph
  if let some kind := g.kind? id then
    if kind ≠ .root then throw (.print (.notRoot kind))
  let text ← w.printer.print (g.unfold id)
  Writer.say ("Printed " ++ toString (text.length - 1) ++ " characters")
  return String.ofList text

/-- A pipeline. It is frozen once it has transformers, each with the name of its plugin. -/
structure Processor (σ : Type) where
  reader : Reader σ := .markdown Schema.scanner.defaults
  writer : Writer σ := .markdown Schema.printer.defaults
  registrations : List (Registration σ) := []
  transformers : Option (List (String × Transformer σ)) := none

/-- Work with a registry. -/
abbrev Setup (σ : Type) :=
  EStateM Fault (Registry σ)

namespace Processor

/-- The processor has its plugins attached. -/
def isFrozen (p : Processor σ) : Bool :=
  p.transformers.isSome

/-- The processor as messages show it. -/
def literal (p : Processor σ) : String :=
  "Processor([" ++ ", ".intercalate (p.registrations.map (·.plugin.name)) ++ "], "
    ++ (if p.isFrozen then "frozen" else "unfrozen") ++ ")"

/-- What processors say goes to their logger. -/
def say (level : LogLevel) (text : String) : Stage σ Unit :=
  Stage.say level .processor text

/-! ### Adding plugins -/

/-- The options that are given by a value: none, or a map. -/
def optionsOf : Value → Except Fault (Option (List Field))
  | .null => .ok none
  | v@(.map _) => .ok (some v.fields)
  | v => .error (.config (.optionsNotMap v.typeName))

/-- The processor with a registration more. -/
def register (p : Processor σ) (plugin : Plugin σ) (options : Option (List Field)) : Setup σ (Processor σ) := do
  modify fun r => { r with
    log := r.log ++ [⟨.debug, .processor, "Registered plugin '" ++ plugin.name ++ "'", false⟩] }
  return { p with registrations := p.registrations ++ [⟨plugin, options⟩] }

/-- The spec of a name in the registry. -/
def lookup (name : String) : Setup σ (PluginSpec σ) := do
  match ← modifyGet fun r => r.get name with
  | .ok spec => return spec
  | .error _ => throw (.config (.unknownPlugin name (← modifyGet Registry.names)))

/-- The processor with a spec added, whose options are checked at once. -/
def useSpec (p : Processor σ) (spec : PluginSpec σ) (options : Value) : Setup σ (Processor σ) := do
  let options ← optionsOf options
  spec.checkOptions (options.getD [])
  p.register spec.plugin options

/-- The processor with a plugin added. -/
def use (p : Processor σ) (candidate : Candidate σ) (options : Value) : Setup σ (Processor σ) := do
  if p.isFrozen then throw (.config .frozen)
  match candidate with
  | .named name => p.useSpec (← lookup name) options
  | .spec spec => p.useSpec spec options
  | .plugin plugin => p.register plugin (← optionsOf options)
  | .other typeName => throw (.config (.notPlugin typeName))

/-! ### Freezing -/

/-- Attaches a plugin; faults that are not about the configuration are wrapped. -/
def attach (r : Registration σ) : Stage σ (Attached σ) :=
  tryCatch r.attach fun fault => throw (if fault.isConfig then fault else .attach r.plugin.name fault)

/-- Attaches plugins in their order. -/
def attachAll : List (Registration σ) → Stage σ (List (String × Transformer σ))
  | [] => return []
  | r :: rest => do
    match ← attach r with
    | .nothing => attachAll rest
    | .transformer t => return (r.plugin.name, t) :: (← attachAll rest)
    | .other typeName => throw (.config (.notTransformer r.plugin.name typeName))

/-- A copy of the processor whose plugins are attached; a frozen processor stays as it is. -/
def freeze (p : Processor σ) : Stage σ (Processor σ) := do
  if p.isFrozen then return p
  let transformers ← attachAll p.registrations
  say .debug ("Froze processor with " ++ toString transformers.length ++ " transformer(s)")
  return { p with transformers := some transformers }

end Processor

end MarkdownTree
