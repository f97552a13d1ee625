/-!
# Kinds of nodes

The closed vocabulary of document nodes: their names, the fields each kind has, and which kinds hold children, hold a
literal value or stand among blocks.
-/

namespace MarkdownTree

/-- What a node is. -/
inductive Kind where
  | root
  | frontMatter
  | heading
  | paragraph
  | codeBlock
  | blockQuote
  | list
  | listItem
  | thematicBreak
  | text
  | emphasis
  | strong
  | inlineCode
  | link
  | image
  | lineBreak
deriving DecidableEq, Repr, Inhabited

namespace Kind

/-- Every kind. -/
def all : List Kind :=
  [root, frontMatter, heading, paragraph, codeBlock, blockQuote, list, listItem, thematicBreak, text, emphasis, strong,
    inlineCode, link, image, lineBreak]

theorem mem_all (k : Kind) : k ∈ all := by
  cases k <;> decide

/-- The tag that names a kind in serialized trees. -/
def name : Kind → String
  | root => "root"
  | frontMatter => "front_matter"
  | heading => "heading"
  | paragraph => "paragraph"
  | codeBlock => "code_block"
  | blockQuote => "block_quote"
  | list => "list"
  | listItem => "list_item"
  | thematicBreak => "thematic_break"
  | text => "text"
  | emphasis => "emphasis"
  | strong => "strong"
  | inlineCode => "inline_code"
  | link => "link"
  | image => "image"
  | lineBreak => "break"

/-- The name of a kind's nodes in messages. -/
def typeName : Kind → String
  | root => "Root"
  | frontMatter => "FrontMatter"
  | heading => "Heading"
  | paragraph => "Paragraph"
  | codeBlock => "CodeBlock"
  | blockQuote => "BlockQuote"
  | list => "List"
  | listItem => "ListItem"
  | thematicBreak => "ThematicBreak"
  | text => "Text"
  | emphasis => "Emphasis"
  | strong => "Strong"
  | inlineCode => "InlineCode"
  | link => "Link"
  | image => "Image"
  | lineBreak => "Break"

/-- The kind with a given tag. -/
def ofName? (s : String) : Option Kind :=
  all.find? (·.name == s)

theorem ofName?_name (k : Kind) : ofName? k.name = some k := by
  cases k <;> decide

/-- Kinds whose nodes hold children. -/
def isParent : Kind → Bool
  | root | heading | paragraph | blockQuote | list | listItem | emphasis | strong | link => true
  | _ => false

/-- Kinds whose nodes hold a literal value. -/
def isLiteral : Kind → Bool
  | frontMatter | codeBlock | text | inlineCode => true
  | _ => false

/-- Kinds that stand among blocks, below the root. -/
def isBlock : Kind → Bool
  | frontMatter | heading | paragraph | codeBlock | blockQuote | list | listItem | thematicBreak => true
  | _ => false

/-- The fields of a kind, in the order in which they are written. -/
def fieldNames : Kind → List String
  | root | paragraph | blockQuote | emphasis | strong => ["children"]
  | frontMatter | text | inlineCode => ["value"]
  | heading => ["depth", "children"]
  | codeBlock => ["value", "lang", "meta"]
  | list => ["children", "ordered", "start", "spread"]
  | listItem => ["children", "spread", "checked"]
  | link => ["destination", "children", "title"]
  | image => ["destination", "alt", "title"]
  | thematicBreak | lineBreak => []

/-- The fields of a kind other than its value and its children. -/
def attributeNames : Kind → List String
  | heading => ["depth"]
  | codeBlock => ["lang", "meta"]
  | list => ["ordered", "start", "spread"]
  | listItem => ["spread", "checked"]
  | link => ["destination", "title"]
  | image => ["destination", "alt", "title"]
  | _ => []

end Kind

end MarkdownTree
