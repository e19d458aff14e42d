import Cdcl.Random
import Cdcl.Trail

/-!
# Deciding at random

A place in the list of variables is drawn, and the next decision is on the first unassigned variable
from there on, the list taken as a ring. A coin tells the sign. The source of the random values is a
parameter.
-/

namespace Cdcl.Order
set_option autoImplicit false

/-- Variables in the order in which they were added, and a source of random values. -/
structure Uniform (σ : Type) where
  vars : Array Var := #[]
  source : σ

namespace Uniform

variable {σ : Type}

/-- The order without variables. -/
def create (source : σ) : Uniform σ := { source }

def addVar (o : Uniform σ) (v : Var) : Uniform σ := { o with vars := o.vars.push v }

/-- The first unassigned variable of a list. -/
def firstUnassigned (t : Trail) : List Var → Except Fault (Option Var)
  | [] => .ok none
  | v :: vs => do
    let assigned ← t.isAssigned v.positive
    if assigned then firstUnassigned t vs else .ok (some v)

/-- The variables from a place on, followed by those before it. -/
def ringFrom (o : Uniform σ) (i : Nat) : List Var :=
  o.vars.toList.drop i ++ o.vars.toList.take i

/-- Picks an unassigned variable and a sign. -/
def select [RandomSource σ] (o : Uniform σ) (t : Trail) :
    Except Fault (Option Literal × Uniform σ) :=
  if o.vars.isEmpty then .ok (none, o)
  else do
    let (place, source) := RandomSource.below o.vars.size o.source
    let found ← firstUnassigned t (o.ringFrom place)
    match found with
    | none => .ok (none, { o with source })
    | some v =>
      let (positive, source) := RandomSource.coin source
      .ok (some (v.literal (!positive)), { o with source })

end Uniform
end Cdcl.Order
