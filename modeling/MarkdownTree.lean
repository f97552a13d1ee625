import MarkdownTree.Data
import MarkdownTree.Data.Operation
import MarkdownTree.Diagnostic
import MarkdownTree.Draft
import MarkdownTree.Draft.Codec
import MarkdownTree.Draft.Typed
import MarkdownTree.Event
import MarkdownTree.Fault
import MarkdownTree.Graph
import MarkdownTree.Graph.Edit
import MarkdownTree.Graph.Test
import MarkdownTree.Graph.Validity
import MarkdownTree.Graph.Visit
import MarkdownTree.Kind
import MarkdownTree.Log
import MarkdownTree.Number.Binary
import MarkdownTree.Number.Decimal
import MarkdownTree.Number.Floating
import MarkdownTree.Options
import MarkdownTree.Plugin
import MarkdownTree.Plugin.Builtin
import MarkdownTree.Plugin.FrontMatter
import MarkdownTree.Plugin.HeadingOffset
import MarkdownTree.Plugin.Parameter
import MarkdownTree.Plugin.Registry
import MarkdownTree.Plugin.RemoveKinds
import MarkdownTree.Plugin.ValidateStructure
import MarkdownTree.Position
import MarkdownTree.Position.Locator
import MarkdownTree.Print.Escape
import MarkdownTree.Print.Leaf
import MarkdownTree.Print.Options
import MarkdownTree.Print.Phrasing
import MarkdownTree.Print.Printer
import MarkdownTree.Print.Scene
import MarkdownTree.Processor
import MarkdownTree.Processor.Run
import MarkdownTree.Proofs.Alike
import MarkdownTree.Proofs.Anchor
import MarkdownTree.Proofs.Append
import MarkdownTree.Proofs.Arranged
import MarkdownTree.Proofs.Backtick
import MarkdownTree.Proofs.Balance
import MarkdownTree.Proofs.BlockPrint
import MarkdownTree.Proofs.BlockRow
import MarkdownTree.Proofs.Chunk
import MarkdownTree.Proofs.CodeBlock
import MarkdownTree.Proofs.CodeSpan
import MarkdownTree.Proofs.Codec
import MarkdownTree.Proofs.Column
import MarkdownTree.Proofs.Container
import MarkdownTree.Proofs.Content
import MarkdownTree.Proofs.Course
import MarkdownTree.Proofs.Decoding
import MarkdownTree.Proofs.Depth
import MarkdownTree.Proofs.Difference
import MarkdownTree.Proofs.Divergence
import MarkdownTree.Proofs.Document
import MarkdownTree.Proofs.Emphasis
import MarkdownTree.Proofs.EmphasisRoundTrip
import MarkdownTree.Proofs.Encoding
import MarkdownTree.Proofs.Escape
import MarkdownTree.Proofs.Escaped
import MarkdownTree.Proofs.Event
import MarkdownTree.Proofs.Extent
import MarkdownTree.Proofs.Fence
import MarkdownTree.Proofs.Gap
import MarkdownTree.Proofs.Grammar
import MarkdownTree.Proofs.Halt
import MarkdownTree.Proofs.HeadingForm
import MarkdownTree.Proofs.HeadingPrint
import MarkdownTree.Proofs.Inline
import MarkdownTree.Proofs.InlinePrint
import MarkdownTree.Proofs.InlineText
import MarkdownTree.Proofs.Intact
import MarkdownTree.Proofs.ItemLine
import MarkdownTree.Proofs.ItemMarker
import MarkdownTree.Proofs.ItemRow
import MarkdownTree.Proofs.Itinerary
import MarkdownTree.Proofs.Json
import MarkdownTree.Proofs.Leaf
import MarkdownTree.Proofs.Line
import MarkdownTree.Proofs.LineStart
import MarkdownTree.Proofs.LineTexts
import MarkdownTree.Proofs.LinkTail
import MarkdownTree.Proofs.Links
import MarkdownTree.Proofs.Located
import MarkdownTree.Proofs.Mirror
import MarkdownTree.Proofs.Neighbour
import MarkdownTree.Proofs.Nesting
import MarkdownTree.Proofs.OneLine
import MarkdownTree.Proofs.Onward
import MarkdownTree.Proofs.Origin
import MarkdownTree.Proofs.Oversight
import MarkdownTree.Proofs.Pairing
import MarkdownTree.Proofs.Passage
import MarkdownTree.Proofs.Phrase
import MarkdownTree.Proofs.Piece
import MarkdownTree.Proofs.Plain
import MarkdownTree.Proofs.PlainPrint
import MarkdownTree.Proofs.Point
import MarkdownTree.Proofs.Positions
import MarkdownTree.Proofs.Printing
import MarkdownTree.Proofs.Progress
import MarkdownTree.Proofs.Prose
import MarkdownTree.Proofs.Pruning
import MarkdownTree.Proofs.Purity
import MarkdownTree.Proofs.Quiet
import MarkdownTree.Proofs.QuietPrint
import MarkdownTree.Proofs.Recording
import MarkdownTree.Proofs.Registry
import MarkdownTree.Proofs.Regular
import MarkdownTree.Proofs.Removal
import MarkdownTree.Proofs.Rescan
import MarkdownTree.Proofs.Respelling
import MarkdownTree.Proofs.RoundTrip
import MarkdownTree.Proofs.Script
import MarkdownTree.Proofs.Separator
import MarkdownTree.Proofs.Serialized
import MarkdownTree.Proofs.Shift
import MarkdownTree.Proofs.Sign
import MarkdownTree.Proofs.Silence
import MarkdownTree.Proofs.SilencePrint
import MarkdownTree.Proofs.SingleEdit
import MarkdownTree.Proofs.Slashed
import MarkdownTree.Proofs.Sound
import MarkdownTree.Proofs.SoundDocument
import MarkdownTree.Proofs.SoundHolder
import MarkdownTree.Proofs.SoundLeaf
import MarkdownTree.Proofs.SoundPrint
import MarkdownTree.Proofs.SoundRoundTrip
import MarkdownTree.Proofs.Spared
import MarkdownTree.Proofs.Spelling
import MarkdownTree.Proofs.SpellingPrint
import MarkdownTree.Proofs.Splice
import MarkdownTree.Proofs.Spread
import MarkdownTree.Proofs.Standing
import MarkdownTree.Proofs.Taken
import MarkdownTree.Proofs.Tidy
import MarkdownTree.Proofs.TidyScan
import MarkdownTree.Proofs.Tiling
import MarkdownTree.Proofs.Tree
import MarkdownTree.Proofs.Trim
import MarkdownTree.Proofs.Unstressed
import MarkdownTree.Proofs.Validity
import MarkdownTree.Proofs.View
import MarkdownTree.Proofs.Waiting
import MarkdownTree.Proofs.Walks
import MarkdownTree.Proofs.Writing
import MarkdownTree.Purity
import MarkdownTree.Scan.Anomaly
import MarkdownTree.Scan.Autolink
import MarkdownTree.Scan.Chunk
import MarkdownTree.Scan.CodeSpan
import MarkdownTree.Scan.Document
import MarkdownTree.Scan.Emphasis
import MarkdownTree.Scan.File
import MarkdownTree.Scan.Inline
import MarkdownTree.Scan.Line
import MarkdownTree.Scan.LinkTail
import MarkdownTree.Scan.Options
import MarkdownTree.Scan.Piece
import MarkdownTree.Scan.Sign
import MarkdownTree.Session
import MarkdownTree.Source
import MarkdownTree.Text.Blank
import MarkdownTree.Text.Difference
import MarkdownTree.Text.Digit
import MarkdownTree.Text.Encoding
import MarkdownTree.Text.Escape
import MarkdownTree.Text.Lines
import MarkdownTree.Text.Punctuation
import MarkdownTree.Text.Quoted
import MarkdownTree.Text.Range
import MarkdownTree.Text.Unprintable
import MarkdownTree.Text.Uppercase
import MarkdownTree.Tree
import MarkdownTree.Value
import MarkdownTree.Value.Entries
import MarkdownTree.Value.Json
import MarkdownTree.Workshop
import MarkdownTree.Yaml.Defect
import MarkdownTree.Yaml.Document
import MarkdownTree.Yaml.Node
import MarkdownTree.Yaml.Scalar
import MarkdownTree.Yaml.Text
import MarkdownTree.Yaml.Token
