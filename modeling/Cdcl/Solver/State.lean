import Std.Data.HashMap
import Cdcl.Analysis
import Cdcl.Certificate
import Cdcl.Intake
import Cdcl.Kernel
import Cdcl.Notice
import Cdcl.Solver.Config

/-!
# The state of a solver

`Solver` holds the formula and everything learnt about it. Between calls the trail is at level 0.
Every step of a solver leaves its notices in the journal. `setKernel` and `setCertificate` put a new
kernel or certificate in place and note the literals assigned and the records written meanwhile.
-/

namespace Cdcl
set_option autoImplicit false

/-- A solver for clauses and at-least constraints. -/
structure Solver where
  config : Config := {}
  kernel : Kernel := {}
  /-- The stored learnt clauses. -/
  learnts : List ClauseRef := []
  formulaSize : Nat := 0
  /-- The stored constraints of the formula by what they demand. -/
  known : Std.HashMap ConstraintKey ClauseRef := ∅
  analyzer : Analyzer := {}
  order : Order
  restarts : Restart
  /-- The record of the reasoning, if one is kept. -/
  certificate : Option Certificate
  /-- What a learnt clause gains when it is used. -/
  clauseIncrement : Float := 1.0
  /-- How many learnt clauses are kept. -/
  maxLearnts : Float := 0.0
  /-- How long the trail was when the constraints that hold for good were last removed. -/
  simplified : Nat := 0
  /-- Whether the formula is known to be unsatisfiable. -/
  refuted : Bool := false
  /-- The model found by the last call. -/
  model : Option (List Int) := none
  /-- The longest time that a call may take, in nanoseconds. -/
  timeLimit : Option Nat := none
  /-- The largest number of conflicts that a call may meet. -/
  conflictLimit : Option Nat := none
  stats : Statistics := {}
  /-- What happened so far. -/
  journal : Array Notice := #[]

/-- Why an operation of a solver fails. -/
inductive SolverError where
  | contradiction (cause : Contradiction)
  /-- A limit was reached before an answer was found. -/
  | timeout
  /-- At-least constraints have no resolution certificate. -/
  | certificateUnsupported
deriving DecidableEq

def SolverError.message : SolverError → String
  | contradiction cause => "contradiction: " ++ cause.message
  | timeout => "timeout before an answer was found"
  | certificateUnsupported => "cardinality constraints cannot be recorded in a resolution proof"

namespace Solver

/-- A solver without variables. -/
def create (config : Config) : Except Fault Solver := do
  let order ← Order.ofPolicy config.order config.varDecay
  let restarts ← Restart.ofPolicy config.restarts
  .ok { config, order, restarts, certificate := if config.certificate then some {} else none }

/-! ## Views -/

def trail (s : Solver) : Trail := s.kernel.trail

def store (s : Solver) : Store := s.kernel.store

def numVars (s : Solver) : Nat := s.trail.vars

def numConstraints (s : Solver) : Nat := s.store.size

def numLearnts (s : Solver) : Nat := s.learnts.length

def statistics (s : Solver) : Statistics :=
  { s.stats with propagations := s.kernel.propagations }

/-- What the clock shows. -/
def now (s : Solver) : Nat := s.config.clock s.journal.size

/-! ## Journal -/

/-- Leaves a notice. -/
def note (s : Solver) (n : Notice) : Solver := { s with journal := s.journal.push n }

def noteAll (s : Solver) (ns : List Notice) : Solver :=
  { s with journal := s.journal ++ ns.toArray }

/-- The notices of the literals that joined a trail since it had `size` literals. -/
def assignments (size : Nat) (t : Trail) : List Notice :=
  (t.literals.extract size t.literals.size).toList.map fun l => .assigned l (t.levelOf l.var)

/-- Puts a kernel in place that goes on from the present one. -/
def setKernel (s : Solver) (k : Kernel) : Solver :=
  { s with kernel := k }.noteAll (assignments s.trail.literals.size k.trail)

/-- Puts a trail in place that goes on from the present one. -/
def setTrail (s : Solver) (t : Trail) : Solver := s.setKernel { s.kernel with trail := t }

/-- The length of the trail, and the trail apart from the solver, so that it is changed in place. -/
@[reducible, noinline]
def takeTrail (s : Solver) : Nat × Trail × Solver :=
  (s.trail.literals.size, s.trail, { s with kernel := { s.kernel with trail := {} } })

/-- Puts a certificate in place that goes on from the given log. -/
def setCertificate (s : Solver) (old : Log) (c : Certificate) : Solver :=
  { s with certificate := some c }.noteAll ((Log.eventsSince old c.log).filterMap Notice.ofEvent)

/-- Puts an order in place that goes on from the present one. -/
def setOrder (s : Solver) (o : Order) : Solver :=
  { s with order := o }.noteAll
    (List.replicate (o.rescales - s.order.rescales) .activitiesRescaled)

/-! ## Certificate -/

/-- Changes the certificate, if one is kept. -/
def certify (s : Solver) (step : Certificate → Except Fault Certificate) : Except Fault Solver :=
  match s.certificate with
  | none => .ok s
  | some c => do
    let c' ← step c
    .ok (s.setCertificate c.log c')

/-- Records a clause in the certificate, if one is kept, and gives its number. -/
def certifyClause (s : Solver) (step : Certificate → Except Fault (ClauseId × Certificate)) :
    Except Fault (Option ClauseId × Solver) :=
  match s.certificate with
  | none => .ok (none, s)
  | some c => do
    let (id, c') ← step c
    .ok (some id, s.setCertificate c.log c')

/-- Records the unit clauses of the literals forced at level 0. -/
def recordRoot (s : Solver) : Except Fault Solver :=
  s.certify fun c => c.recordRoot s.trail s.store

/-! ## Changes to the parts -/

/-- Takes back every level above the given one. -/
def backtrack (s : Solver) (level : Nat) : Except Fault Solver := do
  let (t, undone) := s.trail.undoTo level
  let order ← s.order.undoAll undone
  .ok { s with kernel := { s.kernel with trail := t }, order }

/-- Finds all consequences of the assignment, or a violated constraint. -/
def propagate (s : Solver) : Except Fault (Option ClauseRef × Solver) := do
  let (conflict, k) ← s.kernel.propagate
  .ok (conflict, s.setKernel k)

/-- Makes a literal true; `f` is the fault if it is false. -/
def assert (s : Solver) (l : Literal) (reason : Option ClauseRef) (f : Fault) :
    Except Fault Solver := do
  match ← s.trail.assign l reason with
  | none => .error f
  | some t => .ok (s.setTrail t)

/-- Settles that the formula is unsatisfiable, because a constraint is violated at level 0. -/
def rootConflict (s : Solver) (conflict : ClauseRef) : Except Fault Solver := do
  let s ← s.recordRoot
  let e ← s.store.get conflict
  let (id, s) ← s.certifyClause fun c => c.deriveEmpty e
  let s := match id with
    | some id => s.note (.emptyDerived id)
    | none => s
  .ok ({ s with refuted := true }.note .rootConflict)

/-- Strikes a constraint that was removed off the records of the formula. -/
def strikeOff (s : Solver) (e : Stored) : Except Fault Solver :=
  if e.learnt then .ok s
  else do
    require (decide (0 < s.formulaSize)) .subtractionOverflow
    .ok { s with known := s.known.erase e.constraint.key, formulaSize := s.formulaSize - 1 }

/-- Takes a constraint out of the store. -/
def removeConstraint (s : Solver) (ref : ClauseRef) : Except Fault Solver :=
  match s.store.get? ref with
  | none => .ok s
  | some e => do
    let kernel ← { s.kernel with store := s.store.erase ref }.detach ref e.constraint
    let s ← { s with kernel }.certify fun c => c.delete e.clauseId
    let s ← s.strikeOff e
    .ok ({ s with stats := { s.stats with deleted := s.stats.deleted + 1 } }.note (.removed ref))

/-- Stores a constraint and lets it watch its literals. -/
def insertConstraint (s : Solver) (e : Stored) : Except Fault (ClauseRef × Solver) := do
  let (ref, store) := s.store.insert e
  let kernel ← { s.kernel with store }.attach ref e.constraint
  .ok (ref, { s with kernel })

end Solver
end Cdcl
