import MarkdownTree.Proofs.Located
import MarkdownTree.Proofs.Printing

/-!
# Printing and reading again

A text that is read, printed and read again may end as another tree: markers of lists that stand in empty list items are
printed on one line, where three of them make a rule (`scan_printTree_rule`).  All steps on the way succeed, and where
the tree comes back the text comes back as well (`printTree_scan_again`).
-/

namespace MarkdownTree

open Scan Print

/-- A text that is read can be printed and read again, and when that leads to the same tree, printing that gives the
same text. -/
theorem printTree_scan_again (o : PrintOptions) (path : Option String) (text : String) :
    ∃ tree printed again, (Scan.scan {} path text).tree = some tree ∧ printTree o tree = .ok printed ∧
      (Scan.scan {} path (.ofList printed)).tree = some again ∧
      (again.erase = tree.erase → printTree o again = .ok printed) := by
  obtain ⟨printed, hprinted⟩ := exists_printTree o
    ((readDocument {} text.toList).tree.map (Locator.ofText text.toList).positionOf)
  refine ⟨_, printed, _, tree_scan {} path text, hprinted, tree_scan {} path (.ofList printed), fun h => ?_⟩
  exact (printTree_congr o h).trans hprinted

theorem eq_ok_of_toOption {ε α : Type} {x : Except ε α} {a : α} (h : x.toOption = some a) : x = .ok a := by
  cases x with
  | error e => cases h
  | ok b => exact congrArg _ (Option.some.inj h)

/-- A plus in front of a star in front of a hyphen opens three lists, one in the other.  They are printed with three
stars, which are a rule when they are read again. -/
theorem scan_printTree_rule :
    ∃ tree again, (Scan.scan {} none "+ * -").tree = some tree ∧ printTree {} tree = .ok "* * *\n".toList ∧
      (Scan.scan {} none "* * *\n").tree = some again ∧ again.erase ≠ tree.erase ∧
      printTree {} again = .ok "***\n".toList := by
  refine ⟨_, _, tree_scan {} none "+ * -", ?_, tree_scan {} none "* * *\n", ?_, ?_⟩
  · exact eq_ok_of_toOption (by decide +kernel)
  · decide +kernel
  · exact eq_ok_of_toOption (by decide +kernel)

end MarkdownTree
