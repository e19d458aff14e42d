import Cdcl.Literal.Checked
import Cdcl.Solver.State

/-!
# Adding to the formula

`newVars`, `addClause` and `addAtLeast` extend the formula of a solver. A constraint is reduced
under the literals fixed so far; what is left is asserted or stored, and a `Handle` tells which. A
failed addition settles that the formula is unsatisfiable, except where it is refused because
at-least constraints have no certificate.
-/

namespace Cdcl
set_option autoImplicit false

/-- What became of a constraint. -/
inductive Handle where
  /-- It is stored, maybe since an earlier addition. -/
  | stored (ref : ClauseRef)
  /-- A single literal was left and asserted. -/
  | unit (l : Literal)
  /-- All these literals were left and asserted. -/
  | units (ls : List Literal)
  /-- It holds anyway. -/
  | satisfied
deriving DecidableEq

/-- The outcome of an addition. -/
abbrev Added := Except SolverError Handle

namespace Solver

/-- The variables from a first one up to the number of the last. -/
def varsFrom (first : Var) (last : Nat) : List Var :=
  (List.range' first.id (last + 1 - first.id)).map Var.mk

/-- Adds fresh variables, numbered after the present ones. -/
def newVars (s : Solver) (count : Nat) : Except Fault Solver := do
  let (first, kernel) ← s.kernel.newVars count
  let s := { s with kernel }
  match first with
  | none => .ok s
  | some v => do
    let analyzer ← s.analyzer.grow s.numVars
    let s := { s with analyzer }
    let s ← s.certify fun c => c.growTo s.numVars
    let order ← s.order.addVars (varsFrom v s.numVars)
    .ok { s with order }

/-- Starts a certificate. Nothing may have been added before. -/
def enableCertificate (s : Solver) : Except Fault Solver := do
  require (s.store.size == 0 && s.trail.literals.isEmpty && !s.refuted) .certificateTooLate
  match s.certificate with
  | some _ => .ok s
  | none => do
    let c ← ({} : Certificate).growTo s.numVars
    .ok { s with certificate := some c }

/-- The literal of a signed number that names one of the variables. -/
def literal (s : Solver) (raw : Int) : Except Fault Literal := do
  require (decide (raw.natAbs ≤ s.numVars)) (.literalOutOfRange raw s.numVars)
  Literal.ofInt raw

def literals (s : Solver) : List Int → Except Fault (List Literal)
  | [] => .ok []
  | raw :: raws => do
    let l ← s.literal raw
    let ls ← s.literals raws
    .ok (l :: ls)

/-- Finds all consequences at level 0. -/
def propagateRoot (s : Solver) : Except Fault (Except SolverError Unit × Solver) := do
  match ← s.propagate with
  | (none, s) => do
    let s ← s.recordRoot
    .ok (.ok (), s)
  | (some conflict, s) => do
    let s ← s.rootConflict conflict
    .ok (.error (.contradiction .unitConflict), s)

/-- Asserts a literal at level 0 that the clause `id` of the certificate consists of. -/
def assertUnit (s : Solver) (l : Literal) (id : Option ClauseId) :
    Except Fault (Except SolverError Unit × Solver) := do
  let s ← s.assert l none (.falseUnit l)
  let s ← s.certify fun c => c.setUnit l.var id
  s.propagateRoot

/-- Asserts literals at level 0, one after the other. -/
def assertAll (s : Solver) : List Literal → Except Fault Solver
  | [] => .ok s
  | l :: ls => do
    let s ← s.assert l none (.falseUnit l)
    s.assertAll ls

/-- Stores a constraint of the formula unless the same is stored already. `given` holds the literals
as they were given. -/
def storeGiven (s : Solver) (c : Constraint) (given : List Literal) :
    Except Fault (Handle × Solver) :=
  match s.known[c.key]? with
  | some ref => .ok (.stored ref, s.note (.duplicate c.literals ref))
  | none => do
    let (id, s) ← s.certifyClause fun p => p.newClause given s.trail
    let (ref, s) ← s.insertConstraint ⟨c, 0.0, false, id⟩
    .ok (.stored ref,
      { s with known := s.known.insert c.key ref, formulaSize := s.formulaSize + 1 })

/-- The outcome of an addition after its literals were asserted. -/
def handleOf (r : Except SolverError Unit) (h : Handle) : Added :=
  match r with
  | .ok () => .ok h
  | .error e => .error e

def addLiterals (s : Solver) (ls : List Literal) : Except Fault (Added × Solver) :=
  if s.refuted then .ok (.error (.contradiction .earlier), s)
  else do
    match ← Intake.clause ls s.trail with
    | .error cause => do
      let (_, s) ← s.certifyClause fun p => p.newClause ls s.trail
      .ok (.error (.contradiction cause),
        { s with refuted := true }.note (.contradictoryClause ls))
    | .ok .satisfied => .ok (.ok .satisfied, s)
    | .ok (.unit l) => do
      let (id, s) ← s.certifyClause fun p => p.newClause ls s.trail
      let (r, s) ← s.assertUnit l id
      .ok (handleOf r (.unit l), s)
    | .ok (.clause rest) => do
      let c ← Constraint.clause rest
      let (h, s) ← s.storeGiven c ls
      .ok (.ok h, s)

def addClause (s : Solver) (raws : List Int) : Except Fault (Added × Solver) := do
  let ls ← s.literals raws
  s.addLiterals ls

/-- Adds an at-least constraint for which no certificate is kept. -/
def addCardinality (s : Solver) (ls : List Literal) (degree : Nat) :
    Except Fault (Added × Solver) := do
  match ← Intake.atLeast ls degree s.trail with
  | .error cause => .ok (.error (.contradiction cause), { s with refuted := true })
  | .ok .satisfied => .ok (.ok .satisfied, s)
  | .ok (.clause .satisfied) => .ok (.ok .satisfied, s)
  | .ok (.units units) => do
    let s ← s.assertAll units
    let (r, s) ← s.propagateRoot
    .ok (handleOf r (.units units), s)
  | .ok (.clause (.unit l)) => do
    let (r, s) ← s.assertUnit l none
    .ok (handleOf r (.unit l), s)
  | .ok (.clause (.clause rest)) => do
    let c ← Constraint.clause rest
    let (h, s) ← s.storeGiven c ls
    .ok (.ok h, s)
  | .ok (.atLeast rest degree) => do
    let c ← Constraint.atLeastOf rest degree
    let (h, s) ← s.storeGiven c rest
    .ok (.ok h, s)

/-- Adds the constraint that at least `degree` of the given literals hold. When a certificate is
kept, only the degrees 0 and 1 are taken. -/
def addAtLeast (s : Solver) (raws : List Int) (degree : Nat) : Except Fault (Added × Solver) := do
  let ls ← s.literals raws
  if s.refuted then .ok (.error (.contradiction .earlier), s)
  else if s.certificate.isSome then
    match degree with
    | 0 => .ok (.ok .satisfied, s)
    | 1 => s.addLiterals ls
    | _ => .ok (.error .certificateUnsupported, s)
  else s.addCardinality ls degree

end Solver
end Cdcl
