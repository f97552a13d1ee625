import MarkdownTree.Plugin.FrontMatter
import MarkdownTree.Plugin.HeadingOffset
import MarkdownTree.Plugin.Registry
import MarkdownTree.Plugin.RemoveKinds
import MarkdownTree.Plugin.ValidateStructure

/-!
# Built-in plugins

The plugins that every registry has.
-/

namespace MarkdownTree

variable {σ : Type}

namespace Plugin

/-- Reads front matter. -/
def frontMatter : Plugin σ :=
  { name := "front_matter", attach := FrontMatter.attach }

/-- Moves headings. -/
def headingOffset : Plugin σ :=
  { name := "heading_offset", attach := HeadingOffset.attach }

/-- Removes nodes of some kinds. -/
def removeKinds : Plugin σ :=
  { name := "remove_kinds", attach := RemoveKinds.attach }

/-- Checks the rules of trees. -/
def validateStructure : Plugin σ :=
  { name := "validate_structure", attach := ValidateStructure.attach }

/-- The built-in plugins. -/
def builtins : List (Plugin σ) :=
  [frontMatter, headingOffset, removeKinds, validateStructure]

end Plugin

namespace PluginSpec

/-- Reads front matter. -/
def frontMatter : PluginSpec σ where
  name := "front-matter"
  factory := FrontMatter.attach
  description := "Parse YAML front matter into vfile.data['front_matter:data']"
  parameters := FrontMatter.parameters
  serial := some 0
  name_ne_empty := by decide

/-- Moves headings. -/
def headingOffset : PluginSpec σ where
  name := "heading-offset"
  factory := HeadingOffset.attach
  description := "Shift heading levels by a specified offset"
  parameters := HeadingOffset.parameters
  serial := some 1
  name_ne_empty := by decide

/-- Removes nodes of some kinds. -/
def removeKinds : PluginSpec σ where
  name := "remove-kinds"
  factory := RemoveKinds.attach
  description := "Remove nodes of specified kinds from the tree"
  parameters := RemoveKinds.parameters
  serial := some 2
  name_ne_empty := by decide

/-- Checks the rules of trees. -/
def validateStructure : PluginSpec σ where
  name := "validate-structure"
  factory := ValidateStructure.attach
  description := "Report tree invariant violations as diagnostics"
  parameters := ValidateStructure.parameters
  serial := some 3
  name_ne_empty := by decide

/-- The built-in plugins as they are published. -/
def builtins : List (PluginSpec σ) :=
  [frontMatter, headingOffset, removeKinds, validateStructure]

end PluginSpec

/-- The built-in plugins, which stand at entry points too. -/
def Catalog.standard : Catalog σ where
  builtins := PluginSpec.builtins
  entryPoints := .ok (PluginSpec.builtins.map fun s => ⟨s.name, .ok (.spec s)⟩)

instance : Inhabited (Registry σ) :=
  ⟨{ catalog := .standard }⟩

end MarkdownTree
