import FeatureGraph.Arith
import FeatureGraph.Arith.Double
import FeatureGraph.Decimal.Exact
import FeatureGraph.Decimal.Layout
import FeatureGraph.Decimal.Nearest
import FeatureGraph.Decimal.Numeral
import FeatureGraph.Decimal.Scalar
import FeatureGraph.Decimal.Shortest
import FeatureGraph.Descent.Idle
import FeatureGraph.Descent.Method
import FeatureGraph.Descent.Optimizer
import FeatureGraph.Event
import FeatureGraph.Forest.Basic
import FeatureGraph.Forest.Columns
import FeatureGraph.Forest.Error
import FeatureGraph.Forest.Loading
import FeatureGraph.Forest.Operator
import FeatureGraph.Forest.Record
import FeatureGraph.Forest.Store
import FeatureGraph.Graph.Ancestry
import FeatureGraph.Graph.Audit
import FeatureGraph.Graph.Basic
import FeatureGraph.Graph.Census
import FeatureGraph.Graph.Document
import FeatureGraph.Graph.Edit
import FeatureGraph.Graph.Error
import FeatureGraph.Graph.NodeTable
import FeatureGraph.Graph.Order
import FeatureGraph.Graph.Slots
import FeatureGraph.Graph.Sweep
import FeatureGraph.Graph.Tape
import FeatureGraph.Json.Decode
import FeatureGraph.Json.Reader
import FeatureGraph.Json.Scalar
import FeatureGraph.Json.Value
import FeatureGraph.Json.Writer
import FeatureGraph.Matrix
import FeatureGraph.Model.Agreement
import FeatureGraph.Model.Dropout
import FeatureGraph.Model.Ensemble
import FeatureGraph.Model.Error
import FeatureGraph.Model.Fitting
import FeatureGraph.Model.Lowering
import FeatureGraph.Model.Selection
import FeatureGraph.Model.Settings
import FeatureGraph.Outcome
import FeatureGraph.Primitive.Basic
import FeatureGraph.Primitive.Column
import FeatureGraph.Primitive.Rule
import FeatureGraph.Random.ChaCha
import FeatureGraph.Random.Source
import FeatureGraph.Walk
import FeatureGraph.Proofs.Outcome
import FeatureGraph.Proofs.Table
import FeatureGraph.Proofs.Order
import FeatureGraph.Proofs.Sorting
import FeatureGraph.Proofs.Tape
import FeatureGraph.Proofs.Operation
import FeatureGraph.Proofs.Change
import FeatureGraph.Proofs.Reachable
import FeatureGraph.Proofs.Column
import FeatureGraph.Proofs.Value
import FeatureGraph.Proofs.ForwardPass
import FeatureGraph.Proofs.Exact
import FeatureGraph.Proofs.ExtendedReal
import FeatureGraph.Proofs.Slope
import FeatureGraph.Proofs.Pairing
import FeatureGraph.Proofs.Compilation
import FeatureGraph.Proofs.Schedule
import FeatureGraph.Proofs.BackwardPass
import FeatureGraph.Proofs.Averages
import FeatureGraph.Proofs.Forest
import FeatureGraph.Proofs.Symbolic
import FeatureGraph.Proofs.Store
import FeatureGraph.Proofs.WellKept
import FeatureGraph.Proofs.Evaluators
import FeatureGraph.Proofs.Records
import FeatureGraph.Proofs.Laws
import FeatureGraph.Proofs.Growth
import FeatureGraph.Proofs.Chain
import FeatureGraph.Proofs.Lowering
import FeatureGraph.Proofs.Wiring
import FeatureGraph.Proofs.Selection
import FeatureGraph.Proofs.Agreement
import FeatureGraph.Proofs.Prediction
import FeatureGraph.Proofs.Ancestry
import FeatureGraph.Proofs.Pruning
import FeatureGraph.Proofs.Bypass
import FeatureGraph.Proofs.Edit
import FeatureGraph.Proofs.Gate
import FeatureGraph.Proofs.Frame
import FeatureGraph.Proofs.Alike
import FeatureGraph.Proofs.Response
import FeatureGraph.Proofs.Representation
import FeatureGraph.Proofs.Census
import FeatureGraph.Proofs.Tour
import FeatureGraph.Proofs.Numeral
import FeatureGraph.Proofs.Trace
import FeatureGraph.Proofs.Confinement
import FeatureGraph.Proofs.Passes
import FeatureGraph.Proofs.Freshness
import FeatureGraph.Proofs.Activation
import FeatureGraph.Proofs.Pinned
import FeatureGraph.Proofs.Tip
import FeatureGraph.Proofs.Mapping
import FeatureGraph.Proofs.Training
import FeatureGraph.Proofs.Reordering
import FeatureGraph.Proofs.Refusal
import FeatureGraph.Proofs.Batches
import FeatureGraph.Proofs.Splitting
import FeatureGraph.Proofs.Ensemble
import FeatureGraph.Proofs.Descent
import FeatureGraph.Proofs.Objective
import FeatureGraph.Proofs.JsonText
import FeatureGraph.Proofs.Document
import FeatureGraph.Proofs.Naming
import FeatureGraph.Proofs.Relisting
import FeatureGraph.Proofs.Rounding
import FeatureGraph.Proofs.ShortestDigits
import FeatureGraph.Proofs.DecimalText
import FeatureGraph.Proofs.Restoration
import FeatureGraph.Proofs.Loading
import FeatureGraph.Proofs.Derivative
import FeatureGraph.Proofs.CutOff
import FeatureGraph.Proofs.Estimates
import FeatureGraph.Proofs.PerfectFit
import FeatureGraph.Proofs.Adam
import FeatureGraph.Proofs.Pauses
import FeatureGraph.Proofs.Spread
import FeatureGraph.Proofs.Discrepancy
import FeatureGraph.Proofs.DoubleArithmetic
import FeatureGraph.Proofs.LostSigns
import FeatureGraph.Proofs.Tolerance
import FeatureGraph.Proofs.Dropout
import FeatureGraph.Proofs.Settings
import FeatureGraph.Proofs.ActiveCount
import FeatureGraph.Proofs.Closure
import FeatureGraph.Proofs.Accumulation
import FeatureGraph.Proofs.CreationOrder
import FeatureGraph.Proofs.Idle
import FeatureGraph.Proofs.BiasCorrection
