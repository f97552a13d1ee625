import MarkdownTree.Draft
import MarkdownTree.Print.Options
import MarkdownTree.Scan.Options

/-!
# Settings as fields

Settings of a scanner or a printer as callers give them: named values that are checked when the settings are made and
whenever they are changed.
-/

namespace MarkdownTree

/-- A kind of settings: its names, with their defaults and what they have to satisfy. -/
structure Schema where
  title : String
  owner : String
  defaults : List Field
  check : List Field → Except Fault Unit

namespace Schema

/-- A number that has to be positive. -/
def requirePositive (fields : List Field) (name : String) : Except Fault Unit :=
  let value := fieldOf fields name
  match value.size? with
  | none => .error .mistyped
  | some n => if n.below (.ofInt 1) then .error (.value (.notPositive name value)) else .ok ()

/-- A text that has to be one of some. -/
def requireChoice (fields : List Field) (name : String) (allowed : List Char) : Except Fault Unit :=
  let value := fieldOf fields name
  let texts := allowed.map Char.toString
  if texts.any fun s => value == .text s then .ok () else .error (.value (.choice name texts value))

/-- The settings of scanners. -/
def scanner : Schema where
  title := "ScannerOptions"
  owner := "MarkdownScanner"
  defaults := [("front_matter", .bool true), ("tab_size", .int 4), ("max_nesting", .int 64)]
  check fields := do
    requirePositive fields "tab_size"
    requirePositive fields "max_nesting"

/-- The settings of printers. -/
def printer : Schema where
  title := "PrinterOptions"
  owner := "MarkdownPrinter"
  defaults := [("bullet", .text "*"), ("emphasis", .text "*"), ("strong", .text "*"), ("fence", .text "\x60"),
    ("rule", .text "*"), ("setext", .bool false), ("ordered_delimiter", .text "."), ("close_atx", .bool false)]
  check fields := do
    requireChoice fields "bullet" ['*', '-', '+']
    requireChoice fields "emphasis" ['*', '_']
    requireChoice fields "strong" ['*', '_']
    requireChoice fields "fence" ['\x60', '~']
    requireChoice fields "rule" ['*', '-', '_']
    requireChoice fields "ordered_delimiter" ['.', ')']

/-- Settings with some of them changed. -/
def update (s : Schema) (fields changes : List Field) : Except Fault (List Field) :=
  if changes.all fun field => (s.defaults.lookup field.1).isSome then do
    let fields := changes.foldl (fun fields field => setField field.1 field.2 fields) fields
    s.check fields
    return fields
  else .error .mistyped

/-- Settings of which some are given. -/
def make (s : Schema) (given : List Field) : Except Fault (List Field) :=
  s.update s.defaults given

/-- Settings as messages show them. -/
def literal (s : Schema) (fields : List Field) : String :=
  s.title ++ "(" ++ ", ".intercalate (fields.map fun field => field.1 ++ "=" ++ field.2.literal) ++ ")"

/-- The owner of settings as messages show it. -/
def ownerLiteral (s : Schema) (fields : List Field) : String :=
  s.owner ++ "(options=" ++ s.literal fields ++ ")"

end Schema

/-- A positive number among settings. -/
def sizeField (fields : List Field) (name : String) : { r : Rat // 0 < r } :=
  match (fieldOf fields name).size? with
  | some (.finite r) => if h : 0 < r then ⟨r, h⟩ else ⟨1, by decide⟩
  | _ => ⟨1, by decide⟩

/-- The first whole number that is not below a positive number among settings; for what is infinite or no number, one
that nothing counted reaches. -/
def countField (fields : List Field) (name : String) : { n : Nat // 0 < n } :=
  let n := match (fieldOf fields name).size? with
    | some (.finite r) => r.ceil.toNat
    | _ => Nat.pow 2 64
  if h : 0 < n then ⟨n, h⟩ else ⟨1, by decide⟩

/-- The settings of a scanner from their fields. -/
def ScanOptions.ofFields (fields : List Field) : ScanOptions :=
  let tab := sizeField fields "tab_size"
  let nesting := countField fields "max_nesting"
  { frontMatter := (fieldOf fields "front_matter").truthy
    tabSize := tab.1, maxNesting := nesting.1, nestingLimit := fieldOf fields "max_nesting"
    tabSize_pos := tab.2, maxNesting_pos := nesting.2 }

/-- The settings of a printer from their fields. -/
def PrintOptions.ofFields (fields : List Field) : PrintOptions :=
  let char := fun name =>
    match fieldOf fields name with
    | .text s => s.toList.headD ' '
    | _ => ' '
  let delimiter := fun name => if char name = '_' then Delimiter.underscore else .star
  { bullet := if char "bullet" = '-' then .hyphen else if char "bullet" = '+' then .plus else .star
    emphasis := delimiter "emphasis"
    strong := delimiter "strong"
    fence := if char "fence" = '~' then .tilde else .backtick
    rule := if char "rule" = '-' then .hyphen else if char "rule" = '_' then .underscore else .star
    setext := (fieldOf fields "setext").truthy
    numberMark := if char "ordered_delimiter" = ')' then .parenthesis else .period
    closeAtx := (fieldOf fields "close_atx").truthy }

end MarkdownTree
