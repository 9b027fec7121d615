import CubeAxes.Outline
import CubeAxes.Query.Change
import CubeAxes.Proofs.Axis.Alike
import CubeAxes.Proofs.Axis.Appending
import CubeAxes.Proofs.Axis.Completeness
import CubeAxes.Proofs.Axis.DrillOrder
import CubeAxes.Proofs.Axis.Extended
import CubeAxes.Proofs.Axis.Grouping
import CubeAxes.Proofs.Axis.Normalized
import CubeAxes.Proofs.Axis.Placed
import CubeAxes.Proofs.Axis.Redrilling
import CubeAxes.Proofs.Axis.Repeating
import CubeAxes.Proofs.Axis.Rollback
import CubeAxes.Proofs.Axis.Tracking
import CubeAxes.Proofs.Grammar.Accepting
import CubeAxes.Proofs.Outline.Chains
import CubeAxes.Proofs.Outline.Tables
import CubeAxes.Proofs.Outline.Sorting
import CubeAxes.Proofs.Query.Atomicity
import CubeAxes.Proofs.Query.Commuting
import CubeAxes.Proofs.Query.FailStop
import CubeAxes.Proofs.Query.Operands
import CubeAxes.Proofs.Query.Reporting
import CubeAxes.Proofs.Outline.ShortNames
import CubeAxes.Proofs.Resolution.Emptiness
import CubeAxes.Proofs.Resolution.Typing
import CubeAxes.Proofs.Token.Spacing
import CubeAxes.Proofs.TupleSet.Tuples
