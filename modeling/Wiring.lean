import Wiring.Words
import Wiring.IdMap.Basic
import Wiring.IdMap.Lemmas
import Wiring.Text.CharRanges
import Wiring.Text.DefaultIgnorable
import Wiring.Text.GraphemeExtend
import Wiring.Text.Unprintable
import Wiring.Text.Blank
import Wiring.Text.Quoted
import Wiring.Fault
import Wiring.Tally.Basic
import Wiring.Tally.Lemmas
import Wiring.Node
import Wiring.Diagram.Basic
import Wiring.Diagram.Edit
import Wiring.Diagram.Edges
import Wiring.Diagram.Nodes
import Wiring.Diagram.Lemmas
import Wiring.Diagram.Terminals
import Wiring.Diagram.Merge
import Wiring.Diagram.WellFormed
import Wiring.Diagram.Renumber
import Wiring.Diagram.Compose
import Wiring.Diagram.Adjacency
import Wiring.Diagram.Acyclic
import Wiring.Diagram.Levels
import Wiring.Diagram.Distance
import Wiring.Diagram.LongestPath
import Wiring.Diagram.Components
import Wiring.Diagram.DeadEnds
import Wiring.Gate
import Wiring.Circuit.Basic
import Wiring.Circuit.Folding
import Wiring.Circuit.Evaluation
import Wiring.Circuit.Formula
import Wiring.Decimal
import Wiring.Saved.Tree
import Wiring.Saved.Form
import Wiring.Proofs.Tally.Spread
import Wiring.Proofs.Diagram.Neighbours
import Wiring.Proofs.Diagram.Attachment
import Wiring.Proofs.Diagram.Severing
import Wiring.Proofs.Diagram.EditRuns
import Wiring.Proofs.Diagram.Stripping
import Wiring.Proofs.Diagram.Cycles
import Wiring.Proofs.Diagram.Ranking
import Wiring.Proofs.Diagram.Rewiring
import Wiring.Proofs.Diagram.Validity
import Wiring.Proofs.Diagram.Copies
import Wiring.Proofs.Diagram.Uniting
import Wiring.Proofs.Diagram.Removal
import Wiring.Proofs.Diagram.Gluing
import Wiring.Proofs.Diagram.Arrow
import Wiring.Proofs.Diagram.Isomorphism
import Wiring.Proofs.Diagram.Associativity
import Wiring.Proofs.Diagram.Wires
import Wiring.Proofs.Diagram.Dropping
import Wiring.Proofs.Diagram.Merging
import Wiring.Proofs.Diagram.Adjacency
import Wiring.Proofs.Diagram.Orderly
import Wiring.Proofs.Diagram.ExactGluing
import Wiring.Proofs.Diagram.MergedEdges
import Wiring.Proofs.Diagram.Mutations
import Wiring.Proofs.Diagram.InducedPart
import Wiring.Proofs.Diagram.EdgeLists
import Wiring.Proofs.Diagram.MatrixRoundTrip
import Wiring.Proofs.Diagram.NewEdges
import Wiring.Proofs.Diagram.NewIds
import Wiring.Proofs.Diagram.RefusedCalls
import Wiring.Proofs.Diagram.SeparateEnds
import Wiring.Proofs.Diagram.SideBySide
import Wiring.Proofs.Diagram.Interchange
import Wiring.Proofs.Circuit.Parallel
import Wiring.Proofs.IdMap.Raising
import Wiring.Proofs.Diagram.Raising
import Wiring.Proofs.Diagram.Amounts
import Wiring.Proofs.Diagram.Separation
import Wiring.Proofs.Diagram.Trails
import Wiring.Proofs.Diagram.Floods
import Wiring.Proofs.Diagram.RaisedQueries
import Wiring.Proofs.Diagram.RaisedEdits
import Wiring.Proofs.Diagram.Walks
import Wiring.Proofs.Diagram.Tracing
import Wiring.Proofs.Diagram.Search
import Wiring.Proofs.Diagram.Ancestors
import Wiring.Proofs.Diagram.LongestRoutes
import Wiring.Proofs.Diagram.Levelling
import Wiring.Proofs.Diagram.Components
import Wiring.Proofs.Diagram.Parts
import Wiring.Proofs.Circuit.Soundness
import Wiring.Proofs.Circuit.Meaning
import Wiring.Proofs.Circuit.Folds
import Wiring.Proofs.Circuit.Reshaping
import Wiring.Proofs.Circuit.FoldShapes
import Wiring.Proofs.Circuit.FoldMeaning
import Wiring.Proofs.Circuit.Reduction
import Wiring.Proofs.Circuit.Pruning
import Wiring.Proofs.Circuit.RuleRuns
import Wiring.Proofs.Circuit.Bulk
import Wiring.Proofs.Circuit.Simplifying
import Wiring.Proofs.Circuit.Termination
import Wiring.Proofs.Circuit.Passes
import Wiring.Proofs.Circuit.Preservation
import Wiring.Proofs.Circuit.Reading
import Wiring.Proofs.Circuit.Charge
import Wiring.Proofs.Circuit.RuleAnswers
import Wiring.Proofs.Circuit.RaisedRules
import Wiring.Proofs.Circuit.Refusals
import Wiring.Proofs.Circuit.Renumbering
import Wiring.Proofs.Circuit.UsefulNodes
import Wiring.Proofs.Circuit.Evaluating
import Wiring.Proofs.Circuit.Answers
import Wiring.Proofs.Circuit.Copies
import Wiring.Proofs.Circuit.Inputs
import Wiring.Proofs.Circuit.Gluing
import Wiring.Proofs.Circuit.Composition
import Wiring.Proofs.Circuit.Associativity
import Wiring.Proofs.Circuit.Checked
import Wiring.Proofs.Circuit.NormalForm
import Wiring.Proofs.Circuit.Outputs
import Wiring.Proofs.Circuit.PassLimits
import Wiring.Proofs.Circuit.RefusedBits
import Wiring.Proofs.Words.Degrees
import Wiring.Proofs.Words.Room
import Wiring.Proofs.Words.Edits
import Wiring.Proofs.Words.Renumbering
import Wiring.Proofs.Words.Merging
import Wiring.Proofs.Words.Composition
import Wiring.Proofs.Words.Calls
import Wiring.Proofs.Words.Folding
import Wiring.Proofs.Words.Evaluation
import Wiring.Proofs.Words.Footprint
import Wiring.Proofs.Words.Extent
import Wiring.Proofs.Words.Formulas
import Wiring.Proofs.Text.ByteOrder
import Wiring.Proofs.Saved.Arrangement
import Wiring.Proofs.Saved.RoundTrip
import Wiring.Proofs.Formula.Reader
import Wiring.Proofs.Formula.Parentheses
import Wiring.Proofs.Formula.Scanning
import Wiring.Proofs.Formula.Opening
import Wiring.Proofs.Formula.Cycles
import Wiring.Proofs.Formula.Frames
import Wiring.Proofs.Formula.Values
import Wiring.Proofs.Formula.Inputs
import Wiring.Proofs.Formula.Expressions
