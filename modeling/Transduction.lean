import Transduction.Symbol
import Transduction.Output
import Transduction.Ascending
import Transduction.Numbered
import Transduction.PartitionPoint
import Transduction.StateSet
import Transduction.Error
import Transduction.Text.GraphemeBase
import Transduction.Text.Quoted
import Transduction.Text.Bytes
import Transduction.Expr.Basic
import Transduction.Expr.Display
import Transduction.Expr.Normalize
import Transduction.Expr.Normal
import Transduction.Expr.Size
import Transduction.Expr.Stripping
import Transduction.Expr.Denotation
import Transduction.Expr.Unambiguous
import Transduction.Expr.EmptyWord
import Transduction.Expr.Rewriting
import Transduction.Expr.Regrouping
import Transduction.Expr.Occurrences
import Transduction.PositionGraph.Basic
import Transduction.PositionGraph.Build
import Transduction.PositionGraph.History
import Transduction.Transducer.Basic
import Transduction.Transducer.OfGraph
import Transduction.Transducer.Matching
import Transduction.Transducer.Evaluate
import Transduction.Transducer.Buffers
import Transduction.Transducer.Lookups
import Transduction.Transducer.Functional
import Transduction.Transducer.Worklist
import Transduction.Transducer.Run
import Transduction.Transducer.Reachable
import Transduction.Transducer.Answer
import Transduction.Transducer.Renumbering
import Transduction.Transducer.Parts
import Transduction.Transducer.Relabelling
import Transduction.Transducer.Shift
import Transduction.Transducer.Trim
import Transduction.PositionGraph.Listing
import Transduction.PositionGraph.Slots
import Transduction.Platform
import Transduction.Compile
import Transduction.Transducer.EdgeQuery
import Transduction.Transducer.Entering
import Transduction.Proofs.Transducer.Arrivals
import Transduction.Proofs.Transducer.Advance
import Transduction.Proofs.Transducer.Boundaries
import Transduction.Proofs.Transducer.Exploration
import Transduction.Proofs.Transducer.Worklist
import Transduction.Proofs.Transducer.Frontier
import Transduction.Proofs.Transducer.Recording
import Transduction.Proofs.Transducer.Buffers
import Transduction.Proofs.Transducer.Functionality
import Transduction.Proofs.Transducer.Exactness
import Transduction.Proofs.Transducer.Lookups
import Transduction.Proofs.Transducer.Lockstep
import Transduction.Proofs.Transducer.Limit
import Transduction.Proofs.Transducer.Agreement
import Transduction.Proofs.Transducer.Completeness
import Transduction.Proofs.Transducer.Skeleton
import Transduction.Proofs.Transducer.Renumbering
import Transduction.Proofs.Transducer.Parts
import Transduction.Proofs.Transducer.Relabelling
import Transduction.Proofs.Transducer.Shift
import Transduction.Proofs.Text.Quoted
import Transduction.Proofs.Text.Bytes
import Transduction.Proofs.Expr.Rewriting
import Transduction.Proofs.Expr.Regrouping
import Transduction.Proofs.Expr.Display
import Transduction.Proofs.Expr.EmptyWord
import Transduction.Proofs.Expr.Denotation
import Transduction.Proofs.Expr.Outline
import Transduction.Proofs.Expr.Occurrences
import Transduction.Proofs.Expr.Normal
import Transduction.Proofs.Expr.Size
import Transduction.Proofs.Expr.Stripping
import Transduction.Proofs.PositionGraph.Parts
import Transduction.Proofs.PositionGraph.Numbering
import Transduction.Proofs.PositionGraph.History
import Transduction.Proofs.PositionGraph.Listing
import Transduction.Proofs.PositionGraph.Slots
import Transduction.Proofs.PositionGraph.Shift
import Transduction.Proofs.PositionGraph.Relabelling
import Transduction.Proofs.PositionGraph.EmptyWord
import Transduction.Proofs.PositionGraph.Reading
import Transduction.Proofs.PositionGraph.Rounds
import Transduction.Proofs.PositionGraph.Denotation
import Transduction.Proofs.PositionGraph.Runs
import Transduction.Proofs.PositionGraph.Trim
import Transduction.Proofs.PositionGraph.Simple
import Transduction.Proofs.PositionGraph.Unambiguity
import Transduction.Proofs.PositionGraph.UniqueRuns
import Transduction.Proofs.PositionGraph.ParallelEdges
import Transduction.Proofs.PositionGraph.Alike
import Transduction.Proofs.PositionGraph.Outline
import Transduction.Proofs.PositionGraph.Skeleton
import Transduction.Proofs.PositionGraph.Renumbering
import Transduction.Proofs.Transducer.EdgeQuery
import Transduction.Proofs.Transducer.Entering
import Transduction.Proofs.Compile
import Transduction.Proofs.Normalization
import Transduction.Proofs.Regrouping
import Transduction.Proofs.Unions
import Transduction.Proofs.Trim
import Transduction.Proofs.Platform.Counting
import Transduction.Proofs.Platform.Machines
