import Cdcl.Resolution.Replay
import Cdcl.Store

/-!
# Certificates

A `Certificate` records the reasoning of a solver as resolution steps. Besides the log it knows,
for every variable fixed at level 0, the unit clause that fixes it, and it knows the empty clause
once it is derived. Literals that are false at level 0 are resolved away with these units, so a
clause in the log has exactly the literals of the stored clause.
-/

namespace Cdcl
set_option autoImplicit false

/-- The record of a refutation under construction. -/
structure Certificate where
  log : Log := {}
  /-- The unit clause of every variable fixed at level 0. -/
  units : VarMap (Option ClauseId) := .empty
  /-- How much of the trail at level 0 has its unit clauses. -/
  cursor : Nat := 0
  /-- The empty clause. -/
  empty : Option ClauseId := none

namespace Certificate

/-- The width in bytes of the place of a unit clause. -/
def cellWidth : Nat := 8

def growTo (c : Certificate) (vars : Nat) : Except Fault Certificate := do
  let units ← c.units.grow vars cellWidth none
  .ok { c with units }

/-- The unit clause of a variable fixed at level 0. -/
def unitOf (c : Certificate) (v : Var) : Except Fault ClauseId := do
  match ← c.units.get v with
  | some id => .ok id
  | none => .error (.missingUnit v)

/-- The steps that resolve the literals of variables fixed at level 0 away. -/
def unitSteps (c : Certificate) : List Var → Except Fault (List ResolutionStep)
  | [] => .ok []
  | v :: vs => do
    let id ← c.unitOf v
    let steps ← c.unitSteps vs
    .ok ((v, id) :: steps)

def setUnit (c : Certificate) (v : Var) (id : Option ClauseId) : Except Fault Certificate := do
  let units ← c.units.set v id
  .ok { c with units }

def derive (c : Certificate) (start : ClauseId) (steps : List ResolutionStep) :
    Except Fault (ClauseId × Certificate) := do
  let (id, log) ← c.log.derive start steps
  .ok (id, { c with log })

def falsified (ls : List Literal) (t : Trail) : List Literal := ls.filter fun l => t.holds (-l)

/-- Records a clause of the formula, resolves the false literals away, and gives the clause that is
left. If every literal is false, that is the empty clause. -/
def newClause (c : Certificate) (ls : List Literal) (t : Trail) :
    Except Fault (ClauseId × Certificate) := do
  let (root, log) := c.log.addRoot ls
  let c := { c with log }
  let steps ← c.unitSteps ((Literal.canonical (falsified ls t)).map (·.var))
  let (id, c) ← c.derive root steps
  .ok (id, if ls.all fun l => t.holds (-l) then { c with empty := some id } else c)

/-- The number of a stored constraint in the certificate. -/
def idOf (e : Stored) : Except Fault ClauseId :=
  match e.clauseId with
  | some id => .ok id
  | none => .error .missingClauseId

/-- Derives the unit clause of a literal that was forced at level 0, unless it has one: the reason
is resolved with the units of its other literals. -/
def recordUnit (c : Certificate) (t : Trail) (s : Store) (l : Literal) :
    Except Fault Certificate := do
  match ← c.units.get l.var with
  | some _ => .ok c
  | none =>
    match t.reasonOf l.var with
    | none => .error (.rootWithoutReason l)
    | some ref => do
      let e ← s.get ref
      let start ← idOf e
      let others := e.constraint.literals.filter fun m => m.var != l.var
      let steps ← c.unitSteps (others.map (·.var))
      let (id, c) ← c.derive start steps
      c.setUnit l.var (some id)

def recordUnits (c : Certificate) (t : Trail) (s : Store) :
    List Literal → Except Fault Certificate
  | [] => .ok c
  | l :: ls => do
    let c ← c.recordUnit t s l
    c.recordUnits t s ls

/-- Derives the unit clauses of the literals that were forced at level 0 since the last time. -/
def recordRoot (c : Certificate) (t : Trail) (s : Store) : Except Fault Certificate := do
  let c ← c.recordUnits t s (t.root.toList.drop c.cursor)
  .ok { c with cursor := t.root.size }

/-- Derives the empty clause from a clause that is violated at level 0. -/
def deriveEmpty (c : Certificate) (e : Stored) : Except Fault (ClauseId × Certificate) := do
  let start ← idOf e
  let steps ← c.unitSteps (e.constraint.literals.map (·.var))
  let (id, c) ← c.derive start steps
  .ok (id, { c with empty := some id })

def delete (c : Certificate) (id : Option ClauseId) : Except Fault Certificate :=
  match id with
  | none => .ok c
  | some id => do
    let log ← c.log.deleted id
    .ok { c with log }

/-- The numbers of the clauses that a chain resolves with. -/
def resolveIds (s : Store) : List (Var × ClauseRef) → Except Fault (List ResolutionStep)
  | [] => .ok []
  | (v, ref) :: steps => do
    let e ← s.get ref
    let id ← idOf e
    let rest ← resolveIds s steps
    .ok ((v, id) :: rest)

/-- Records a learnt clause: the violated constraint is resolved with the reasons met by the
analysis, and then with the units of the variables fixed at level 0. -/
def deriveLearnt (c : Certificate) (s : Store) (conflict : ClauseRef)
    (steps : List (Var × ClauseRef)) (fixed : List Var) :
    Except Fault (ClauseId × Certificate) := do
  let e ← s.get conflict
  let start ← idOf e
  let reasons ← resolveIds s steps
  let units ← c.unitSteps fixed
  c.derive start (reasons ++ units)

/-- Replays the certificate up to the empty clause. -/
def replay (c : Certificate) : Except Fault Replay :=
  match c.empty with
  | none => .ok ⟨[], ⟨#[]⟩, .error .noRefutation⟩
  | some id => c.log.checkReplay (some id)

end Certificate
end Cdcl
