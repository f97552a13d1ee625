import MarkdownTree.Log
import MarkdownTree.Scan.Document

/-!
# Scanned files

Reading the text of a file: it is decoded, and what the scan complains about becomes warnings of the file.
-/

namespace MarkdownTree

namespace Scan

/-- The warning of a note. -/
def Note.diagnostic (l : Locator) (n : Note) : Diagnostic where
  text := n.anomaly.message
  position := some ⟨l.pointAt n.span.start, l.pointAt (max n.span.start n.span.stop)⟩
  rule := some n.anomaly.rule
  source := some Diagnostic.scannerSource

/-- A text with the tree that it reads as and the warnings about it. -/
structure Scanned where
  tree : Option (Tree Position)
  warnings : List Diagnostic
  log : List LogRecord
deriving Repr

/-- Reads a text from the file of the given path. -/
def scan (o : ScanOptions) (path : Option String) (text : String) : Scanned :=
  let cs := text.toList
  let l := Locator.ofText cs
  let document := readDocument o cs
  let warnings := document.notes.map fun n => { n.diagnostic l with path := path }
  let about := (document.notes.zip warnings).flatMap fun (n, d) =>
    [⟨.debug, .scanner, "Scanner anomaly at " ++ toString n.span.start ++ ": " ++ d.text, false⟩,
      LogRecord.ofRecorded d]
  let read := "Tokenized " ++ toString (linesOf cs).length ++ " lines into " ++ toString (2 * document.tree.size)
    ++ " events"
  let parsed := "Parsed " ++ pathText path ++ " into " ++ toString document.tree.children.length
    ++ " top-level blocks"
  { tree := locate? l document.tree
    warnings
    log := about ++ [⟨.debug, .blocks, read, false⟩, ⟨.debug, .scanner, parsed, false⟩] }

end Scan

namespace File

/-- Reads the file: its content becomes text, or the file has failed with a fatal diagnostic. -/
def scan (o : ScanOptions) (f : File) : Except Fault (Tree Position) × File × List LogRecord :=
  match f.decode with
  | .error d => (.error (.failure d.text), f.record d, [.ofRecorded (f.label d)])
  | .ok text =>
    let s := Scan.scan o f.path text
    let f := { f with source := .text text, messages := f.messages ++ s.warnings }
    match s.tree with
    | some tree => (.ok tree, f, s.log)
    | none => (.error (.parse .treeless), f, s.log)

end File

end MarkdownTree
