import MarkdownTree.Plugin

/-!
# Registries

Published plugins by their names. A registry fills itself when something is first looked up in it: with the built-in
plugins, then with those found at its entry points. What was registered before then stays, unless an entry point has a
plugin of the same name.
-/

namespace MarkdownTree

/-- A place where a plugin may be found, or why it cannot be loaded. -/
structure EntryPoint (σ : Type) where
  name : String
  load : Except String (Candidate σ)

/-- Where a registry gets plugins from by itself. -/
structure Catalog (σ : Type) where
  builtins : List (PluginSpec σ)
  entryPoints : Except String (List (EntryPoint σ))

/-- Plugins by their names, in the order in which the names came, and what was said about them. -/
structure Registry (σ : Type) where
  catalog : Catalog σ
  plugins : List (PluginSpec σ) := []
  initialized : Bool := false
  log : List LogRecord := []

namespace Registry

variable {σ : Type}

/-- The registry after it said something. -/
def say (r : Registry σ) (level : LogLevel) (text : String) : Registry σ :=
  { r with log := r.log ++ [{ level, logger := .registry, text }] }

/-- The plugin of a name, among those registered so far. -/
def find? (r : Registry σ) (name : String) : Option (PluginSpec σ) :=
  r.plugins.find? (·.name == name)

/-- Plugins with one more, which takes the place of one of the same name. -/
def insertSpec (s : PluginSpec σ) : List (PluginSpec σ) → List (PluginSpec σ)
  | [] => [s]
  | t :: rest => if t.name = s.name then s :: rest else t :: insertSpec s rest

/-- The registry with a plugin registered. -/
def register (r : Registry σ) (s : PluginSpec σ) : Registry σ :=
  let r :=
    if (r.find? s.name).isSome then r.say .warning ("Plugin '" ++ s.name ++ "' already registered, overwriting") else r
  { r with plugins := insertSpec s r.plugins }.say .debug ("Registered plugin: " ++ s.name)

/-- The registry without a plugin, and whether it was there. -/
def unregister (r : Registry σ) (name : String) : Bool × Registry σ :=
  if (r.find? name).isSome then
    (true, { r with plugins := r.plugins.filter (·.name != name) }.say .debug ("Unregistered plugin: " ++ name))
  else (false, r)

/-- The registry without plugins. -/
def clear (r : Registry σ) : Registry σ :=
  { r with plugins := [] }

/-- The very same spec is registered already. -/
def holds (r : Registry σ) (s : PluginSpec σ) : Bool :=
  match r.find? s.name with
  | some t => s.serial.isSome && t.serial == s.serial
  | none => false

/-- The registry after a look at an entry point, and whether that registered a plugin. -/
def visitEntry (r : Registry σ) (e : EntryPoint σ) : Bool × Registry σ :=
  match e.load with
  | .error text => (false, r.say .warning ("Failed to load plugin entry point '" ++ e.name ++ "': " ++ text))
  | .ok (.spec s) => if r.holds s then (false, r) else (true, r.register s)
  | .ok _ => (false, r.say .warning ("Entry point '" ++ e.name ++ "' did not return a PluginSpec, skipping"))

/-- The registry after a look at all entry points, and the number of plugins that were registered. -/
def discover (r : Registry σ) : Nat × Registry σ :=
  match r.catalog.entryPoints with
  | .error text => (0, r.say .warning ("Failed to discover plugins: " ++ text))
  | .ok entries =>
    let (count, r) := entries.foldl (fun (count, r) e =>
      let (registered, r) := visitEntry r e
      (if registered then count + 1 else count, r)) (0, r)
    (count, r.say .info ("Discovered " ++ toString count ++ " plugin(s) from entry points"))

/-- Plugins with one more, unless its name is taken. -/
def insertNew (r : Registry σ) (s : PluginSpec σ) : Registry σ :=
  if (r.find? s.name).isSome then r else { r with plugins := r.plugins ++ [s] }

/-- The registry once it has filled itself. -/
def filled (r : Registry σ) : Registry σ :=
  if r.initialized then r
  else (r.catalog.builtins.foldl insertNew { r with initialized := true }).discover.2

/-- The plugin of a name. -/
def get (r : Registry σ) (name : String) : Except Fault (PluginSpec σ) × Registry σ :=
  let r := r.filled
  match r.find? name with
  | some s => (.ok s, r)
  | none => (.error (.key (.notRegistered name)), r)

/-- Whether there is a plugin of a name. -/
def has (r : Registry σ) (name : String) : Bool × Registry σ :=
  let r := r.filled
  ((r.find? name).isSome, r)

/-- The names of all plugins, sorted. -/
def names (r : Registry σ) : List String × Registry σ :=
  let r := r.filled
  ((r.plugins.map (·.name)).mergeSort (· ≤ ·), r)

end Registry

end MarkdownTree
