import ExactLP.Listing
import ExactLP.Search
import ExactLP.Model.Arrays
import ExactLP.Grid.Sheet
import ExactLP.Proofs.Runs
import ExactLP.Proofs.Simplex.Running
import ExactLP.Proofs.Simplex.Choice
import ExactLP.Proofs.Simplex.Pricing
import ExactLP.Proofs.Simplex.PhaseOne
import ExactLP.Proofs.Simplex.Transition
import ExactLP.Proofs.Solution
import ExactLP.Proofs.Simplex.Verdict
import ExactLP.Proofs.Equations.Blocks
import ExactLP.Proofs.Named
import ExactLP.Proofs.Equations.Layout
import ExactLP.Proofs.Equations.Labels
import ExactLP.Proofs.Equations.Feasible
import ExactLP.Proofs.Simplex.Start
import ExactLP.Proofs.Simplex.Optimality
import ExactLP.Proofs.Simplex.Uniqueness
import ExactLP.Proofs.Simplex.Bland
import ExactLP.Proofs.Simplex.Cycling
import ExactLP.Proofs.Simplex.Termination
import ExactLP.Proofs.Simplex.Integrity
import ExactLP.Proofs.Simplex.Lossless
import ExactLP.Proofs.Simplex.Duality
import ExactLP.Proofs.Simplex.Reading
import ExactLP.Proofs.Simplex.Report
import ExactLP.Proofs.Equations.Points
import ExactLP.Proofs.Equations.Projection
import ExactLP.Proofs.Equations.Growth
import ExactLP.Proofs.Standard.Split
import ExactLP.Proofs.Standard.Integral
import ExactLP.Proofs.Standard.Compile
import ExactLP.Proofs.Standard.Preservation
import ExactLP.Proofs.Standard.Meaning
import ExactLP.Proofs.Standard.Implication
import ExactLP.Proofs.Standard.Disjunction
import ExactLP.Proofs.Standard.Negation
import ExactLP.Proofs.Standard.Conditions
import ExactLP.Proofs.Standard.Owned
import ExactLP.Proofs.Search.Relaxation
import ExactLP.Proofs.Search.Coverage
import ExactLP.Proofs.Search.Optimality
import ExactLP.Proofs.Search.Threshold
import ExactLP.Proofs.Search.Feasibility
import ExactLP.Proofs.Search.Names
import ExactLP.Proofs.Search.Outcomes
import ExactLP.Proofs.Number.Trial
import ExactLP.Proofs.Number.History
import ExactLP.Proofs.Number.Ratio
import ExactLP.Proofs.Model.Written
import ExactLP.Proofs.InStep
import ExactLP.Proofs.Standard.Parts
import ExactLP.Proofs.Simplex.Complementary
import ExactLP.Proofs.Standard.BigM
import ExactLP.Proofs.Standard.Commutation
import ExactLP.Proofs.Standard.Literals
import ExactLP.Proofs.Grid.Mirror
import ExactLP.Proofs.Simplex.Mirror
import ExactLP.Proofs.Search.Mirror
import ExactLP.Proofs.Grid.Determinant
import ExactLP.Proofs.Simplex.Limit
import ExactLP.Proofs.Simplex.Progress
import ExactLP.Proofs.Search.Budget
import ExactLP.Proofs.Grid.Inverse
import ExactLP.Proofs.Grid.History
import ExactLP.Proofs.Listing.Declarations
import ExactLP.Proofs.Model.Words
import ExactLP.Proofs.Search.Branching
import ExactLP.Proofs.Standard.Rounding
import ExactLP.Proofs.Standard.Outweighing
