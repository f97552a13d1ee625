import MarkdownTree.Plugin.Parameter
import MarkdownTree.Session

/-!
# Plugins

A plugin is called once with its options, when a processor is frozen, and gives a transformer or nothing. The
transformer is called for every document. It may edit the tree in place, give another root, or give something that has
to be waited for.
-/

namespace MarkdownTree

/-- What a transformer hands back. -/
inductive Handed (σ : Type) where
  | now (item : Item)
  /-- Something to wait for, and how to let go of it unwaited. -/
  | later (wait : Stage σ Item) (close : Stage σ Unit)

/-- What is done to the tree of a document. -/
abbrev Transformer (σ : Type) :=
  NodeId → Stage σ (Handed σ)

/-- What becomes of the tree after a transformer. -/
inductive Verdict where
  | keep
  | replace (root : NodeId)
deriving DecidableEq, Repr

namespace Verdict

/-- The name of an item's type in messages. -/
def typeName (g : Graph) : Item → String
  | .node id => ((g.kind? id).map Kind.typeName).getD "Node"
  | .value v => v.typeName

/-- The verdict of what a transformer handed back: nothing, or a root. -/
def ofItem (g : Graph) (plugin : Option String) (item : Item) : Except Fault Verdict :=
  match item with
  | .value .null => .ok .keep
  | .node id => if g.kind? id = some .root then .ok (.replace id) else .error (.result plugin (typeName g item))
  | _ => .error (.result plugin (typeName g item))

/-- The tree that goes on. -/
def apply (tree : NodeId) : Verdict → NodeId
  | keep => tree
  | replace root => root

end Verdict

/-- What a plugin gives when it is attached. -/
inductive Attached (σ : Type) where
  | nothing
  | transformer (t : Transformer σ)
  /-- Something that is no transformer, by the name of its type. -/
  | other (typeName : String)

namespace Attached

variable {σ : Type}

/-- A transformer that hands something back at once. -/
def giving (f : NodeId → Stage σ Item) : Attached σ :=
  .transformer fun tree => return .now (← f tree)

/-- A transformer that edits the tree in place. -/
def editing (f : NodeId → Stage σ Unit) : Attached σ :=
  giving fun tree => do
    f tree
    return .value .null

/-- A transformer that hands back something to wait for, which can be let go without more ado. -/
def waiting (f : NodeId → Stage σ Item) : Attached σ :=
  .transformer fun tree => return .later (f tree) (pure ())

end Attached

/-- A plugin with the name that messages use. -/
structure Plugin (σ : Type) where
  name : String
  attach : List Field → Stage σ (Attached σ)
  typeName : String := "function"

/-- The options of a plugin, of which some are given; there are no others than those with a default. -/
def optionsFor (defaults given : List Field) : Except Fault (List Field) :=
  if given.all fun field => (defaults.lookup field.1).isSome then
    .ok (given.foldl (fun fields field => setField field.1 field.2 fields) defaults)
  else .error .mistyped

/-- Options with one of them set: in its place when it is there, at the end otherwise. -/
def insertOption (options : List Field) (field : Field) : List Field :=
  if (options.lookup field.1).isSome then setField field.1 field.2 options else options ++ [field]

/-- A published plugin: what it does, and what is said about it. -/
structure PluginSpec (σ : Type) where
  name : String
  factory : List Field → Stage σ (Attached σ)
  version : String := "1.0.0"
  description : String := ""
  parameters : List (String × Parameter) := []
  /-- The number of a spec that is one and the same wherever it is found; without one, each finding makes it anew. -/
  serial : Option Nat := none
  name_ne_empty : name ≠ ""

namespace PluginSpec

variable {σ : Type}

/-- A spec of a name and of what may be a factory. -/
def make (name : String) (factory : Option (List Field → Stage σ (Attached σ))) (version description : String)
    (parameters : List (String × Parameter)) : Except Fault (PluginSpec σ) :=
  if h : name = "" then .error (.value .emptyPluginName)
  else
    match factory with
    | none => .error (.value (.factory name))
    | some factory => .ok { name, factory, version, description, parameters, name_ne_empty := h }

/-- The options that hold when none are given. -/
def defaults (s : PluginSpec σ) : List Field :=
  s.parameters.map fun (name, p) => (name, p.default)

/-- Fails with the first of some options that the plugin does not know or take. -/
def checkOptions (s : PluginSpec σ) : List Field → Except Fault Unit
  | [] => .ok ()
  | (name, v) :: rest =>
    match s.parameters.lookup name with
    | none =>
      let known := (s.parameters.map (·.1)).mergeSort (· ≤ ·)
      .error (.config (.unknownOption s.name name known))
    | some p => do
      p.check name v
      checkOptions s rest

/-- The plugin that a spec publishes: options that are not given have their defaults. -/
def plugin (s : PluginSpec σ) : Plugin σ where
  name := s.name
  attach given := s.factory (given.foldl insertOption s.defaults)

end PluginSpec

/-- What a caller offers as a plugin. -/
inductive Candidate (σ : Type) where
  | named (name : String)
  | plugin (p : Plugin σ)
  | spec (s : PluginSpec σ)
  /-- Something that is no plugin, by the name of its type. -/
  | other (typeName : String)

namespace Candidate

variable {σ : Type}

/-- The name of a candidate's type in messages. -/
def typeName : Candidate σ → String
  | named _ => "str"
  | plugin p => p.typeName
  | spec _ => "PluginSpec"
  | other t => t

/-- The spec that a candidate is, as registering asks for. -/
def published : Candidate σ → Except Fault (PluginSpec σ)
  | spec s => .ok s
  | c => .error (.type (.registration c.typeName))

end Candidate

/-- A plugin with the options that it is to be attached with. -/
structure Registration (σ : Type) where
  plugin : Plugin σ
  options : Option (List Field)

/-- Attaches the plugin. -/
def Registration.attach {σ : Type} (r : Registration σ) : Stage σ (Attached σ) := do
  Stage.say .debug .plugin ("Attaching plugin '" ++ r.plugin.name ++ "'")
  r.plugin.attach (r.options.getD [])

end MarkdownTree
