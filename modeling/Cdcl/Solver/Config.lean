import Cdcl.Order
import Cdcl.Restart

/-!
# Solver configuration

How a solver searches, and the clock by which it measures its limit on time. The clock is a function
of the notices that the solver has left: it leaves at least one between two looks at the clock, so
that a choice of this function is a choice of every reading.
-/

namespace Cdcl
set_option autoImplicit false

/-- A clock that stands still, in nanoseconds, on a machine that has run for a day. -/
def standingClock (_ : Nat) : Nat := 86400 * 1000000000

/-- How a solver searches. -/
structure Config where
  restarts : Restart.Policy := .luby 100
  order : Order.Policy := .activity
  varDecay : Float := 0.95
  clauseDecay : Float := 0.999
  /-- The first limit on learnt clauses, as a part of the number of constraints. -/
  learntRatio : Float := 1.0 / 3.0
  /-- The first limit on learnt clauses is no less than this. -/
  minLearnts : Nat := 1000
  certificate : Bool := false
  /-- What the clock shows, in nanoseconds, once so many notices were left. -/
  clock : Nat → Nat := standingClock

end Cdcl
