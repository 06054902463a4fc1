import Sensitivity.Action
import Sensitivity.Approximation.Assembler
import Sensitivity.Approximation.ComplexStep
import Sensitivity.Approximation.Error
import Sensitivity.Approximation.Plan
import Sensitivity.Approximation.Request
import Sensitivity.Approximation.Scheme
import Sensitivity.Approximation.Stencil
import Sensitivity.Approximation.Target
import Sensitivity.Block
import Sensitivity.Check
import Sensitivity.Check.Report
import Sensitivity.Check.Text
import Sensitivity.Component
import Sensitivity.Component.Expression
import Sensitivity.Configuration
import Sensitivity.Decimal
import Sensitivity.Decimal.Shortest
import Sensitivity.Decimal.Style
import Sensitivity.Declaration
import Sensitivity.Declaration.Error
import Sensitivity.DenseMatrix
import Sensitivity.Diagnostics
import Sensitivity.Exchange.Models
import Sensitivity.Exchange.Values
import Sensitivity.Export
import Sensitivity.Graph
import Sensitivity.Graph.Relevance
import Sensitivity.Graph.Search
import Sensitivity.Json
import Sensitivity.Json.Access
import Sensitivity.Json.Reader
import Sensitivity.Layout
import Sensitivity.LinearSolver
import Sensitivity.Model
import Sensitivity.Model.ComponentScope
import Sensitivity.Model.Error
import Sensitivity.Model.Evaluation
import Sensitivity.Model.Flattening
import Sensitivity.Model.GroupScope
import Sensitivity.Model.Linearize
import Sensitivity.Model.Newton
import Sensitivity.Model.Run
import Sensitivity.Model.State
import Sensitivity.Pattern
import Sensitivity.Problem
import Sensitivity.Proofs.Action
import Sensitivity.Proofs.Approximation.Ambiguity
import Sensitivity.Proofs.Approximation.Answering
import Sensitivity.Proofs.Approximation.Caching
import Sensitivity.Proofs.Approximation.Coloring
import Sensitivity.Proofs.Approximation.Completing
import Sensitivity.Proofs.Approximation.Computation
import Sensitivity.Proofs.Approximation.Coverage
import Sensitivity.Proofs.Approximation.Delivering
import Sensitivity.Proofs.Approximation.Deposits
import Sensitivity.Proofs.Approximation.Determinism
import Sensitivity.Proofs.Approximation.Enclosed
import Sensitivity.Proofs.Approximation.Evaluations
import Sensitivity.Proofs.Approximation.Exceeding
import Sensitivity.Proofs.Approximation.Filling
import Sensitivity.Proofs.Approximation.Form
import Sensitivity.Proofs.Approximation.Grouping
import Sensitivity.Proofs.Approximation.Invariants
import Sensitivity.Proofs.Approximation.Masking
import Sensitivity.Proofs.Approximation.Merging
import Sensitivity.Proofs.Approximation.Mixing
import Sensitivity.Proofs.Approximation.Moving
import Sensitivity.Proofs.Approximation.Ordering
import Sensitivity.Proofs.Approximation.Packing
import Sensitivity.Proofs.Approximation.Partition
import Sensitivity.Proofs.Approximation.Polynomials
import Sensitivity.Proofs.Approximation.Quotients
import Sensitivity.Proofs.Approximation.Relaxing
import Sensitivity.Proofs.Approximation.Response
import Sensitivity.Proofs.Approximation.Restoring
import Sensitivity.Proofs.Approximation.Selections
import Sensitivity.Proofs.Approximation.Shapes
import Sensitivity.Proofs.Approximation.Slopes
import Sensitivity.Proofs.Approximation.Stacking
import Sensitivity.Proofs.Approximation.Steady
import Sensitivity.Proofs.Approximation.Stepping
import Sensitivity.Proofs.Approximation.Tracing
import Sensitivity.Proofs.Approximation.Uniform
import Sensitivity.Proofs.Approximation.Writing
import Sensitivity.Proofs.Block
import Sensitivity.Proofs.Breach
import Sensitivity.Proofs.Carrying
import Sensitivity.Proofs.Coupling
import Sensitivity.Proofs.Declaration
import Sensitivity.Proofs.DenseMatrix
import Sensitivity.Proofs.Exact
import Sensitivity.Proofs.Flow
import Sensitivity.Proofs.Graph.Construction
import Sensitivity.Proofs.Graph.Relevance
import Sensitivity.Proofs.Graph.Search
import Sensitivity.Proofs.Mirroring
import Sensitivity.Proofs.Model.Affine
import Sensitivity.Proofs.Model.Assembling
import Sensitivity.Proofs.Model.ChainRule
import Sensitivity.Proofs.Model.Chaining
import Sensitivity.Proofs.Model.Collecting
import Sensitivity.Proofs.Model.Component
import Sensitivity.Proofs.Model.Condensing
import Sensitivity.Proofs.Model.Converging
import Sensitivity.Proofs.Model.Costs
import Sensitivity.Proofs.Model.Dependencies
import Sensitivity.Proofs.Model.Deriving
import Sensitivity.Proofs.Model.Differentiating
import Sensitivity.Proofs.Model.Directing
import Sensitivity.Proofs.Model.Employing
import Sensitivity.Proofs.Model.Enclosing
import Sensitivity.Proofs.Model.Entries
import Sensitivity.Proofs.Model.Forwarding
import Sensitivity.Proofs.Model.Frame
import Sensitivity.Proofs.Model.Gathering
import Sensitivity.Proofs.Model.Granting
import Sensitivity.Proofs.Model.History
import Sensitivity.Proofs.Model.Holding
import Sensitivity.Proofs.Model.Indexing
import Sensitivity.Proofs.Model.Influence
import Sensitivity.Proofs.Model.Interrupting
import Sensitivity.Proofs.Model.Isolating
import Sensitivity.Proofs.Model.Landing
import Sensitivity.Proofs.Model.Lasting
import Sensitivity.Proofs.Model.Layout
import Sensitivity.Proofs.Model.Linearizing
import Sensitivity.Proofs.Model.Matching
import Sensitivity.Proofs.Model.Nesting
import Sensitivity.Proofs.Model.Perturbing
import Sensitivity.Proofs.Model.Pruning
import Sensitivity.Proofs.Model.Refusing
import Sensitivity.Proofs.Model.Relaxing
import Sensitivity.Proofs.Model.Residue
import Sensitivity.Proofs.Model.Rewriting
import Sensitivity.Proofs.Model.Running
import Sensitivity.Proofs.Model.Sampling
import Sensitivity.Proofs.Model.Scaling
import Sensitivity.Proofs.Model.Sealing
import Sensitivity.Proofs.Model.Solving
import Sensitivity.Proofs.Model.Subscribing
import Sensitivity.Proofs.Model.Subsets
import Sensitivity.Proofs.Model.Supplying
import Sensitivity.Proofs.Model.Tabulating
import Sensitivity.Proofs.Model.TotalBlocks
import Sensitivity.Proofs.Model.Totalling
import Sensitivity.Proofs.Model.Tracking
import Sensitivity.Proofs.Model.Unmarking
import Sensitivity.Proofs.Model.Upkeep
import Sensitivity.Proofs.Order
import Sensitivity.Proofs.Replying
import Sensitivity.Proofs.Scalar
import Sensitivity.Proofs.Setup
import Sensitivity.Proofs.Span
import Sensitivity.Proofs.Sparse
import Sensitivity.Proofs.Step
import Sensitivity.Proofs.Subsystem
import Sensitivity.Proofs.Summary
import Sensitivity.Proofs.Table
import Sensitivity.Scalar
import Sensitivity.Scalar.Complex
import Sensitivity.Scalar.Double
import Sensitivity.Settings
import Sensitivity.Span
import Sensitivity.StateVector
import Sensitivity.Step
import Sensitivity.System
import Sensitivity.Table
import Sensitivity.Totals
import Sensitivity.Variable
import Sensitivity.Workbench
