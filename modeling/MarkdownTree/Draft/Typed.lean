import MarkdownTree.Draft
import MarkdownTree.Tree

/-!
# Drafts of trees

Every tree is a draft whose fields have the types that their kinds ask for.
-/

namespace MarkdownTree

/-- A text that may be missing, as a value. -/
def Value.ofText? : Option String → Value
  | some s => .text s
  | none => .null

/-- The value that a node's content holds, if its kind holds one. -/
def Content.value? : Content → Option String
  | .frontMatter value | .codeBlock value .. | .text value | .inlineCode value => some value
  | _ => none

/-- What a node's content says besides its value. -/
def Content.attributes : Content → List Field
  | .heading depth => [("depth", .int depth)]
  | .codeBlock _ lang details => [("lang", .ofText? lang), ("meta", .ofText? details)]
  | .list ordered start spread =>
    [("ordered", .bool ordered), ("start", (start.map Value.int).getD .null), ("spread", .bool spread)]
  | .listItem spread checked => [("spread", .bool spread), ("checked", (checked.map Value.bool).getD .null)]
  | .link destination title => [("destination", .text destination), ("title", .ofText? title)]
  | .image destination alt title => [("destination", .text destination), ("alt", .text alt), ("title", .ofText? title)]
  | _ => []

/-- All that a node's content says, in the order of its kind. -/
def Content.fields (c : Content) : List Field :=
  match c.value? with
  | some value => ("value", .text value) :: c.attributes
  | none => c.attributes

namespace Draft

mutual

/-- The draft of a tree. -/
def ofTree : Tree (Option Position) → Draft
  | .node position content children =>
    .node content.kind content.fields (position.map .ofPosition) (ofTrees children) none

/-- The drafts of a list of trees. -/
def ofTrees : List (Tree (Option Position)) → List Draft
  | [] => []
  | t :: ts => ofTree t :: ofTrees ts

end

end Draft

end MarkdownTree
