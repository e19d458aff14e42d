import Cdcl.Resolution
import Cdcl.Resolution.Event

/-!
# Checking a certificate

A `Checker` holds the clauses of the records it has visited: roots as they are given, derived
clauses as it computes them, and nothing in the place of a deleted clause. A visit tells whether the
record is accepted and what the checker is afterwards.
-/

namespace Cdcl
set_option autoImplicit false

/-- The clauses visited so far, by their numbers. -/
structure Checker where
  clauses : Array (Option (List Literal)) := #[]

namespace Checker

/-- A clause that was visited and not deleted. -/
def clause (k : Checker) (id : ClauseId) : Except ResolutionError (List Literal) :=
  match k.clauses[id]? with
  | some (some c) => .ok c
  | _ => .error (.danglingClause id)

def push (k : Checker) (id : ClauseId) (clause : List Literal) : Except Fault Checker := do
  require (decide (id = k.clauses.size)) .idsOutOfOrder
  .ok ⟨k.clauses.push (some clause)⟩

/-- Resolves a clause with the clauses of the steps in turn. -/
def runSteps (k : Checker) : List Literal → List ResolutionStep →
    Except ResolutionError (List Literal)
  | c, [] => .ok c
  | c, (v, next) :: steps => do
    let other ← k.clause next
    let r ← Cdcl.resolve c other v
    k.runSteps r steps

/-- The clause that a chain derives. -/
def derive (k : Checker) (start : ClauseId) (steps : List ResolutionStep) :
    Except ResolutionError (List Literal) := do
  let c ← k.clause start
  k.runSteps c steps

def root (k : Checker) (id : ClauseId) (literals : List Literal) : Except Fault Checker :=
  k.push id literals

def chain (k : Checker) (id start : ClauseId) (steps : List ResolutionStep) :
    Except Fault (Except ResolutionError Checker) :=
  match k.derive start steps with
  | .error e => .ok (.error e)
  | .ok c => do
    let k ← k.push id c
    .ok (.ok k)

def deleted (k : Checker) (id : ClauseId) : Except ResolutionError Checker :=
  if id < k.clauses.size then .ok ⟨k.clauses.setIfInBounds id none⟩
  else .error (.danglingClause id)

/-- The checker that takes the place of this one, unless the change was refused. -/
def settle (k : Checker) : Except ResolutionError Checker → Except ResolutionError Unit × Checker
  | .ok k' => (.ok (), k')
  | .error reason => (.error reason, k)

/-- Visits a record: whether it is accepted, and the checker afterwards. -/
def visit (k : Checker) : Event → Except Fault (Except ResolutionError Unit × Checker)
  | .root id literals => do
    let k ← k.root id literals
    .ok (.ok (), k)
  | .chain id start steps => do
    let r ← k.chain id start steps
    .ok (k.settle r)
  | .deleted id => .ok (k.settle (k.deleted id))

end Checker
end Cdcl
