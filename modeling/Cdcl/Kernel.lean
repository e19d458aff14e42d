import Cdcl.Constraint.Reaction
import Cdcl.Store
import Cdcl.Watches

/-!
# Propagation

`Kernel` joins the trail, the watch lists and the store. `Kernel.visit` lets one constraint react to
a false literal, and `Kernel.propagate` visits the constraints that watch the negation of each
literal waiting on the trail, until none waits or a constraint is violated.
-/

namespace Cdcl
set_option autoImplicit false

/-- A partial assignment and the constraints it has to respect. -/
structure Kernel where
  trail : Trail := {}
  watches : Watches := {}
  store : Store := {}
  /-- How many literals were taken off the queue. -/
  propagations : Nat := 0

namespace Kernel

/-- Adds fresh variables, numbered after the present ones, and gives the first of them. -/
def newVars (k : Kernel) (count : Nat) : Except Fault (Option Var × Kernel) := do
  let first := k.trail.vars + 1
  let vars ← Word.add k.trail.vars count
  let watches ← k.watches.growTo vars
  let trail ← k.trail.growTo vars
  .ok (if count = 0 then none else some ⟨first⟩, { k with trail, watches })

/-- Puts a constraint on the lists of the literals it watches. -/
def attach (k : Kernel) (ref : ClauseRef) (c : Constraint) : Except Fault Kernel := do
  let watches ← k.watches.addAll ref c.watching
  .ok { k with watches }

/-- Takes a constraint off the lists of the literals it watches. -/
def detach (k : Kernel) (ref : ClauseRef) (c : Constraint) : Except Fault Kernel := do
  let watches ← k.watches.removeAll ref c.watching
  .ok { k with watches }

/-- Makes literals true because of a constraint, until one is false. -/
def forceAll (reason : ClauseRef) : List Literal → Trail → Except Fault (Bool × Trail)
  | [], t => .ok (true, t)
  | l :: ls, t => do
    match ← t.assign l (some reason) with
    | none => .ok (false, t)
    | some t => forceAll reason ls t

/-- Does what the reaction of a constraint to a false literal asks for; tells whether the constraint
can still hold. -/
def apply (k : Kernel) (ref : ClauseRef) (fals : Literal) :
    Reaction → Except Fault (Bool × Kernel)
  | .keep => do
    let watches ← k.watches.add fals ref
    .ok (true, { k with watches })
  | .move l => do
    let watches ← k.watches.add l ref
    .ok (true, { k with watches })
  | .force ls => do
    let watches ← k.watches.add fals ref
    let (ok, trail) ← forceAll ref ls k.trail
    .ok (ok, { k with watches, trail })
  | .conflict => do
    let watches ← k.watches.add fals ref
    .ok (false, { k with watches })

/-- Lets a stored constraint react to a false literal; tells whether it can still hold. -/
def visit (k : Kernel) (ref : ClauseRef) (fals : Literal) : Except Fault (Bool × Kernel) := do
  let e ← k.store.get ref
  let (c, reaction) ← e.constraint.react k.trail fals
  { k with store := k.store.put ref { e with constraint := c } }.apply ref fals reaction

/-- Visits constraints that watched a false literal. At a violated one the constraints that were not
visited get their place on the list back, and nothing is left to propagate. -/
def visitAll (fals : Literal) :
    List ClauseRef → Kernel → Except Fault (Option ClauseRef × Kernel)
  | [], k => .ok (none, k)
  | ref :: refs, k => do
    let (ok, k) ← k.visit ref fals
    if ok then visitAll fals refs k
    else do
      let watches ← k.watches.restore fals refs
      .ok (some ref, { k with watches, trail := k.trail.flush })

/-- Propagates one literal taken off the queue. -/
def propagateLiteral (k : Kernel) (l : Literal) : Except Fault (Option ClauseRef × Kernel) := do
  let (refs, watches) ← k.watches.take (-l)
  visitAll (-l) refs.toList { k with watches, propagations := k.propagations + 1 }

/-- Propagates at most `fuel` literals. -/
def propagateFrom : Nat → Kernel → Except Fault (Option ClauseRef × Kernel)
  | 0, k => .ok (none, k)
  | fuel + 1, k =>
    match k.trail.next with
    | none => .ok (none, k)
    | some (l, trail) => do
      match ← { k with trail }.propagateLiteral l with
      | (some conflict, k) => .ok (some conflict, k)
      | (none, k) => propagateFrom fuel k

/-- Finds all consequences of the waiting literals, or a violated constraint. Every variable joins
the trail at most once, so no more literals can wait than there are cells for variables. -/
def propagate (k : Kernel) : Except Fault (Option ClauseRef × Kernel) :=
  propagateFrom k.trail.positions.cells.size k

end Kernel
end Cdcl
