import FormulaEditor.Drag
import FormulaEditor.Editor
import FormulaEditor.Proofs.Acceptance
import FormulaEditor.Proofs.Agreeing
import FormulaEditor.Proofs.Arranging
import FormulaEditor.Proofs.Attaching
import FormulaEditor.Proofs.Branch
import FormulaEditor.Proofs.Building
import FormulaEditor.Proofs.Checking
import FormulaEditor.Proofs.Commuting
import FormulaEditor.Proofs.Confluence
import FormulaEditor.Proofs.Conforming
import FormulaEditor.Proofs.Copying
import FormulaEditor.Proofs.Counting
import FormulaEditor.Proofs.Cutting
import FormulaEditor.Proofs.Deciding
import FormulaEditor.Proofs.Discarding
import FormulaEditor.Proofs.Dragging
import FormulaEditor.Proofs.Drawing
import FormulaEditor.Proofs.Dropping
import FormulaEditor.Proofs.Edit
import FormulaEditor.Proofs.Editing
import FormulaEditor.Proofs.Encoding
import FormulaEditor.Proofs.Ending
import FormulaEditor.Proofs.Enumerating
import FormulaEditor.Proofs.Evaluating
import FormulaEditor.Proofs.Exploring
import FormulaEditor.Proofs.Flatten
import FormulaEditor.Proofs.Forest
import FormulaEditor.Proofs.Grammar
import FormulaEditor.Proofs.Growth
import FormulaEditor.Proofs.Invariants
import FormulaEditor.Proofs.Keeping
import FormulaEditor.Proofs.Legible
import FormulaEditor.Proofs.Lists
import FormulaEditor.Proofs.Locating
import FormulaEditor.Proofs.Marking
import FormulaEditor.Proofs.Matching
import FormulaEditor.Proofs.Merging
import FormulaEditor.Proofs.Mirroring
import FormulaEditor.Proofs.Moving
import FormulaEditor.Proofs.Neighbours
import FormulaEditor.Proofs.Obtained
import FormulaEditor.Proofs.Offering
import FormulaEditor.Proofs.Outlining
import FormulaEditor.Proofs.Parsing
import FormulaEditor.Proofs.Paths
import FormulaEditor.Proofs.Permuting
import FormulaEditor.Proofs.Reading
import FormulaEditor.Proofs.Rearranging
import FormulaEditor.Proofs.Remembering
import FormulaEditor.Proofs.Renumbering
import FormulaEditor.Proofs.Reordering
import FormulaEditor.Proofs.Reproducing
import FormulaEditor.Proofs.RoundTrip
import FormulaEditor.Proofs.Rounding
import FormulaEditor.Proofs.Shape
import FormulaEditor.Proofs.Shuffling
import FormulaEditor.Proofs.Sizing
import FormulaEditor.Proofs.Splicing
import FormulaEditor.Proofs.Splitting
import FormulaEditor.Proofs.Stale
import FormulaEditor.Proofs.Tagging
import FormulaEditor.Proofs.Undoing
import FormulaEditor.Text.Checked
import FormulaEditor.Text.Grammar
import FormulaEditor.Text.Reading
import FormulaEditor.Tree.Layout
