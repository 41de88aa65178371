import DualSimplex.Scalar
import DualSimplex.Scalar.Exact
import DualSimplex.Decimal.Layout
import DualSimplex.Bound
import DualSimplex.Report
import DualSimplex.Matrix
import DualSimplex.Basis
import DualSimplex.Parameters
import DualSimplex.Solution
import DualSimplex.RatioTest
import DualSimplex.EdgeWeights
import DualSimplex.EntryHistory
import DualSimplex.Ray
import DualSimplex.Factor.PivotSearch
import DualSimplex.Factor.LU
import DualSimplex.Factor.FactoredBasis
import DualSimplex.Engine.Pivot
import DualSimplex.Engine.Consistency
import DualSimplex.Solve
import DualSimplex.Proofs.Factor.Reachable
import DualSimplex.Proofs.Engine.Boundary
import DualSimplex.Proofs.Engine.Equations
import DualSimplex.Proofs.Engine.Duality
import DualSimplex.Proofs.Engine.Endings
import DualSimplex.Proofs.Engine.Factors
import DualSimplex.Proofs.Engine.Optimality
import DualSimplex.Proofs.Engine.ReportedEquations
import DualSimplex.Proofs.Engine.SolvedValues
import DualSimplex.Proofs.Engine.SolvedDuals
import DualSimplex.Proofs.Engine.IterationLimit
import DualSimplex.Proofs.Engine.Reload
import DualSimplex.Proofs.Engine.PhaseTwo
import DualSimplex.Proofs.Infeasibility
import DualSimplex.Proofs.Senses
import DualSimplex.Proofs.RatioGroups
import DualSimplex.Proofs.RatioOrder
import DualSimplex.Proofs.Factor.Completion
import DualSimplex.Proofs.Engine.Alarms
import DualSimplex.Proofs.Engine.RowNorms
import DualSimplex.Proofs.Engine.Recession
import DualSimplex.Proofs.Engine.ObjectiveGain
import DualSimplex.Proofs.Draft.Access
import DualSimplex.Proofs.Unboundedness
import DualSimplex.Proofs.Double.Laws
import DualSimplex.Proofs.Factor.BucketOrder
import DualSimplex.Proofs.Factor.EntryCount
import DualSimplex.Proofs.Factor.Maintained
import DualSimplex.Proofs.Factor.Underway
import DualSimplex.Proofs.Factor.Visits
import DualSimplex.Proofs.Factor.PivotOrder
import DualSimplex.Proofs.Agreement
import DualSimplex.Proofs.Indexed
import DualSimplex.Proofs.Mutations
import DualSimplex.Proofs.EntryHistory
import DualSimplex.Proofs.LeavingChoice
import DualSimplex.Proofs.Engine.Workload
import DualSimplex.Proofs.Engine.Extension
