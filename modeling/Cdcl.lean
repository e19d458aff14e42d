import Cdcl.Literal.Lemmas
import Cdcl.Main
import Cdcl.Proofs.Assignment
import Cdcl.Proofs.Resolution.Soundness
import Cdcl.Proofs.Resolution.Reading
import Cdcl.Proofs.Resolution.Recording
import Cdcl.Proofs.Resolution.Checking
import Cdcl.Proofs.Resolution.RoundTrip
import Cdcl.Proofs.Resolution.Roots
import Cdcl.Proofs.Resolution.Bracketing
import Cdcl.Proofs.Table
import Cdcl.Proofs.Trail.Changes
import Cdcl.Proofs.Constraint.Reaction
import Cdcl.Proofs.Constraint.Reason
import Cdcl.Proofs.Constraint.Lifetime
import Cdcl.Proofs.Store
import Cdcl.Proofs.Watches
import Cdcl.Proofs.Kernel.Invariant
import Cdcl.Proofs.Kernel.Propagation
import Cdcl.Proofs.Kernel.Changes
import Cdcl.Proofs.Kernel.Operations
import Cdcl.Proofs.Intake
import Cdcl.Proofs.Intake.Meaning
import Cdcl.Proofs.Intake.NormalForm
import Cdcl.Proofs.Intake.Degree
import Cdcl.Proofs.Kernel.Meaning
import Cdcl.Proofs.Analysis
import Cdcl.Proofs.Order.Covering
import Cdcl.Proofs.Order.Shape
import Cdcl.Proofs.Kernel.Representation
import Cdcl.Proofs.Kernel.Reasons
import Cdcl.Proofs.Resolution.Replaying
import Cdcl.Proofs.Resolution.Guarantees
import Cdcl.Proofs.Certificate
import Cdcl.Proofs.Solver.Changes
import Cdcl.Proofs.Solver.Cleaning
import Cdcl.Proofs.Solver.Learning
import Cdcl.Proofs.Solver.Searching
import Cdcl.Proofs.Solver.Addition
import Cdcl.Proofs.Solver.Session
import Cdcl.Proofs.Solver.Guarantees
import Cdcl.Proofs.Solver.Meaning
import Cdcl.Proofs.Progress.Kernel
import Cdcl.Proofs.Progress.Order
import Cdcl.Proofs.Models.Enumeration
import Cdcl.Proofs.Models.Exactness
import Cdcl.Proofs.Models.Permutation
import Cdcl.Proofs.Models.Repetition
import Cdcl.Proofs.Solver.Watching
import Cdcl.Proofs.Solver.Agreement
import Cdcl.Proofs.Progress.Termination
import Cdcl.Proofs.Solver.Teaching
import Cdcl.Proofs.Solver.Reasons
import Cdcl.Proofs.Solver.Closure
import Cdcl.Proofs.Solver.Duplicates
import Cdcl.Proofs.Solver.Restarting
import Cdcl.Proofs.Solver.Budget
import Cdcl.Proofs.Solver.Deciding
import Cdcl.Proofs.Dimacs.Reading
import Cdcl.Proofs.Luby
import Cdcl.Proofs.Order.Priority
