import Cdcl.Order.Activity
import Cdcl.Order.Uniform

/-!
# Variable orders

An `Order` picks the literal of the next decision. It is told of new variables, of the variables met
in a conflict, of the end of each conflict, and of every literal that is unassigned.
-/

namespace Cdcl
set_option autoImplicit false

/-- Which order to use. -/
inductive Order.Policy where
  /-- Most active variables first. -/
  | activity
  /-- Any unassigned variable. -/
  | uniform (seed : Nat)

/-- How decisions are picked. -/
inductive Order where
  | activity (o : Order.Activity)
  | uniform (o : Order.Uniform Generator)

namespace Order

/-- The order without variables; `decay` is for activities. -/
def ofPolicy (p : Policy) (decay : Float) : Except Fault Order :=
  match p with
  | .activity => do
    let o ← Activity.create decay
    .ok (.activity o)
  | .uniform seed => .ok (.uniform (.create (.ofSeed seed)))

def addVar : Order → Var → Except Fault Order
  | activity o, v => do
    let o ← o.addVar v
    .ok (activity o)
  | uniform o, v => .ok (uniform (o.addVar v))

def addVars (o : Order) : List Var → Except Fault Order
  | [] => .ok o
  | v :: vs => do
    let o ← o.addVar v
    o.addVars vs

/-- Picks an unassigned literal, none if every variable is assigned. -/
def select : Order → Trail → Except Fault (Option Literal × Order)
  | activity o, t => do
    let (l, o) ← o.select t
    .ok (l, activity o)
  | uniform o, t => do
    let (l, o) ← o.select t
    .ok (l, uniform o)

/-- Tells of a variable met in a conflict. -/
def bump : Order → Var → Except Fault Order
  | activity o, v => do
    let o ← o.bump v
    .ok (activity o)
  | uniform o, _ => .ok (uniform o)

def bumpAll (o : Order) : List Var → Except Fault Order
  | [] => .ok o
  | v :: vs => do
    let o ← o.bump v
    o.bumpAll vs

/-- Tells of the end of a conflict. -/
def decayed : Order → Order
  | activity o => activity o.decayed
  | uniform o => uniform o

/-- Tells of a literal that is unassigned again. -/
def undo : Order → Literal → Except Fault Order
  | activity o, l => do
    let o ← o.undo l
    .ok (activity o)
  | uniform o, _ => .ok (uniform o)

def undoAll (o : Order) : List Literal → Except Fault Order
  | [] => .ok o
  | l :: ls => do
    let o ← o.undo l
    o.undoAll ls

/-- How often activities were scaled down. -/
def rescales : Order → Nat
  | activity o => o.rescales
  | uniform _ => 0

end Order
end Cdcl
