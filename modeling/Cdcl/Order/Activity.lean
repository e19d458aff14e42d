import Cdcl.Order.Heap
import Cdcl.Trail

/-!
# Deciding by activity

Variables that are met in conflicts gain activity, and later conflicts weigh more: the amount that
is gained grows with every conflict. The next decision is on a most active unassigned variable, with
the sign it had when it was last unassigned, negative at first.
-/

namespace Cdcl.Order
set_option autoImplicit false

/-- Variables by activity. -/
structure Activity where
  heap : Heap Float := {}
  /-- What a variable gains next. -/
  increment : Float := 1.0
  /-- The increment is divided by this factor after every conflict. -/
  decay : Float
  /-- The last sign of each variable. -/
  positive : VarMap Bool := .empty
  /-- How often the activities were scaled down. -/
  rescales : Nat := 0

namespace Activity

/-- Activities stay below this limit. -/
def rescaleLimit : Float := 1e100

/-- The order without variables. The decay factor is above 0 and at most 1. -/
def create (decay : Float) : Except Fault Activity := do
  require (decide (0.0 < decay) && decide (decay ≤ 1.0)) (.decayOutOfRange decay.toBits)
  .ok { decay }

def activity (o : Activity) (v : Var) : Except Fault Float := o.heap.score v

def addVar (o : Activity) (v : Var) : Except Fault Activity := do
  let heap ← o.heap.grow v.id 0.0
  let positive ← o.positive.grow v.id 1 false
  let heap ← heap.insert v
  .ok { o with heap, positive }

/-- Takes variables out of the heap until one is unassigned; `fuel` bounds how many. -/
def popUnassigned (t : Trail) : Nat → Heap Float → Except Fault (Option Var × Heap Float)
  | 0, h => .ok (none, h)
  | fuel + 1, h =>
    match h.pop with
    | none => .ok (none, h)
    | some (v, h) => do
      let assigned ← t.isAssigned v.positive
      if assigned then popUnassigned t fuel h else .ok (some v, h)

/-- Picks a most active unassigned variable, with its last sign. Assigned variables leave the heap
when they come to its top. -/
def select (o : Activity) (t : Trail) : Except Fault (Option Literal × Activity) := do
  let (picked, heap) ← popUnassigned t o.heap.queue.size o.heap
  match picked with
  | none => .ok (none, { o with heap })
  | some v => do
    let positive ← o.positive.get v
    .ok (some (v.literal (!positive)), { o with heap })

/-- Scales all activities and the increment down. -/
def rescale (o : Activity) : Activity :=
  { o with
    heap := o.heap.rescale (· / rescaleLimit)
    increment := o.increment / rescaleLimit
    rescales := o.rescales + 1 }

/-- Makes a variable more active. -/
def bump (o : Activity) (v : Var) : Except Fault Activity := do
  let old ← o.heap.score v
  let o := if rescaleLimit ≤ old + o.increment then o.rescale else o
  let heap ← o.heap.increase v (· + o.increment)
  .ok { o with heap }

/-- Lets later gains weigh more. -/
def decayed (o : Activity) : Activity := { o with increment := o.increment / o.decay }

/-- Takes back the variable of a literal that is unassigned again, and remembers its sign. -/
def undo (o : Activity) (l : Literal) : Except Fault Activity := do
  let positive ← o.positive.set l.var (!l.negative)
  let heap ← o.heap.insert l.var
  .ok { o with heap, positive }

end Activity
end Cdcl.Order
