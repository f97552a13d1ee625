import MarkdownTree.Value

/-!
# Anomalies

What a scan can complain about. No anomaly stops it: the text in question is read in some other way.
-/

namespace MarkdownTree

/-- A stretch of source text: the offset of its first character and the offset just after its last. -/
structure Span where
  start : Nat
  stop : Nat
deriving DecidableEq, Repr, Inhabited

namespace Scan

/-- A construct that was read as something else, or read with a doubt. -/
inductive Anomaly where
  | unclosedFence (run : List Char)
  | nestingLimit (limit : Value)
  | headingNoSpace
  | unclosedCode
  | unclosedLink
  | unmatchedDelimiter (run : List Char)
deriving DecidableEq, Repr

namespace Anomaly

/-- The message about an anomaly. -/
def message : Anomaly → String
  | unclosedFence run =>
    "Code fence " ++ Text.quote (String.ofList run) ++ " is never closed; it runs to the end of its container"
  | nestingLimit limit => "Containers nested deeper than " ++ limit.literal ++ " levels are read as text"
  | headingNoSpace => "Heading marker must be followed by a space; read as text"
  | unclosedCode => "Code span is never closed"
  | unclosedLink => "Link destination is never closed"
  | unmatchedDelimiter run => "Unmatched emphasis delimiter " ++ Text.quote (String.ofList run)

/-- The identifier of the rule that an anomaly breaks. -/
def rule : Anomaly → String
  | unclosedFence _ => "unclosed-fence"
  | nestingLimit _ => "nesting-limit"
  | headingNoSpace => "heading-no-space"
  | unclosedCode => "unclosed-inline-code"
  | unclosedLink => "unclosed-link"
  | unmatchedDelimiter _ => "unmatched-delimiter"

end Anomaly

/-- An anomaly with its place. -/
structure Note where
  anomaly : Anomaly
  span : Span
deriving DecidableEq, Repr

/-- The note moved to other offsets. -/
def Note.relocate (f : Nat → Nat) (n : Note) : Note :=
  { n with span := ⟨f n.span.start, f n.span.stop⟩ }

end Scan

end MarkdownTree
