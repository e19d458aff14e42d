import Cdcl.Table

/-!
# The trail

`Trail` is the current partial assignment together with its history. It tells the same story in
several tables: which literals hold, the level, the reason and the place of every assigned variable,
the assigned literals in order, and where each decision level begins. The literals from `head` on wait
for propagation.

`assign` extends the assignment at the current level, `decide` opens a level first, and `undoTo`
takes back every level above a given one. Each writes the tables one by one.
-/

namespace Cdcl
set_option autoImplicit false

/-- What is known of an assigned variable. -/
structure Mark where
  /-- Whether the negative literal of the variable holds. -/
  negative : Bool
  level : Nat
  /-- The constraint that forced the assignment, if any. -/
  reason : Option ClauseRef
  /-- The place of the variable on the trail. -/
  position : Nat
deriving DecidableEq

/-- A partial assignment and its history. -/
structure Trail where
  vars : Nat := 0
  /-- Whether a literal holds. -/
  truth : LiteralMap Bool := .empty
  /-- The level of every assigned variable. -/
  levels : VarMap Nat := .empty
  /-- The constraint that forced a variable, if any. -/
  reasons : VarMap (Option ClauseRef) := .empty
  /-- The place of every assigned variable among the literals. -/
  positions : VarMap Nat := .empty
  /-- The assigned literals in order. -/
  literals : Array Literal := #[]
  /-- For every decision level above 0, how long the trail was when it was opened. -/
  limits : Array Nat := #[]
  /-- How many literals of the trail were taken for propagation. -/
  head : Nat := 0

namespace Trail

/-! ## Reading -/

def level (t : Trail) : Nat := t.limits.size

/-- Whether a literal is true. -/
def holds (t : Trail) (l : Literal) : Bool := t.truth.getD l false

/-- The level in the table, which is 0 for an unassigned variable. -/
def levelOf (t : Trail) (v : Var) : Nat := t.levels.getD v 0

/-- The constraint that forced a variable, if any. -/
def reasonOf (t : Trail) (v : Var) : Option ClauseRef := t.reasons.getD v none

/-- What the tables say of a variable one of whose literals holds. -/
def markOf (t : Trail) (v : Var) (negative : Bool) : Mark :=
  ⟨negative, t.levelOf v, t.reasonOf v, t.positions.getD v 0⟩

/-- The mark of a variable, none if it is unassigned or unknown. -/
def mark? (t : Trail) (v : Var) : Option Mark :=
  if t.holds ⟨v, false⟩ then some (t.markOf v false)
  else if t.holds ⟨v, true⟩ then some (t.markOf v true)
  else none

/-- Goes on only if a variable has its cells in the tables. -/
def requireVar (t : Trail) (v : Var) : Except Fault Unit :=
  require (t.levels.covers v && t.reasons.covers v && t.positions.covers v) .indexOutOfBounds

/-- Whether a literal is true; the variable has to be known. -/
def isSatisfied (t : Trail) (l : Literal) : Except Fault Bool := t.truth.get l

/-- Whether a literal is false; the variable has to be known. -/
def isFalsified (t : Trail) (l : Literal) : Except Fault Bool := t.truth.get (-l)

/-- Whether the variable of a literal is assigned; the variable has to be known. -/
def isAssigned (t : Trail) (l : Literal) : Except Fault Bool := do
  let sat ← t.isSatisfied l
  if sat then .ok true else t.isFalsified l

/-- The place of an assigned variable on the trail. -/
def positionOf (t : Trail) (v : Var) : Except Fault Nat := do
  let assigned ← t.isAssigned v.positive
  require assigned .assertionFailed
  t.positions.get v

/-- The literals that hold without any decision. -/
def root (t : Trail) : Array Literal :=
  match t.limits[0]? with
  | some limit => t.literals.extract 0 limit
  | none => t.literals

/-- Whether the trail has as many literals as there are variables. -/
def isFull (t : Trail) : Bool := t.literals.size == t.vars

/-- The number of the variable, negative unless the variable is true. -/
def signed (t : Trail) (id : Nat) : Int :=
  if t.holds ⟨⟨id⟩, false⟩ then (id : Int) else -(id : Int)

/-- The assignment as signed variable numbers; an unassigned variable counts as false. -/
def model (t : Trail) : List Int := (List.range' 1 t.vars).map t.signed

/-! ## Changing -/

/-- Makes `vars` the number of variables; there are at least as many as before. -/
def growTo (t : Trail) (vars : Nat) : Except Fault Trail := do
  let truth ← t.truth.grow vars 1 false
  let levels ← t.levels.grow vars 4 0
  let reasons ← t.reasons.grow vars 8 none
  let positions ← t.positions.grow vars 4 0
  .ok { t with vars, truth, levels, reasons, positions }

/-- Puts a literal at the end of the trail. -/
def push (t : Trail) (l : Literal) (reason : Option ClauseRef) : Trail :=
  let level := t.level
  { t with
    truth := t.truth.put l true
    levels := t.levels.put l.var level
    reasons := t.reasons.put l.var reason
    positions := t.positions.put l.var t.literals.size
    literals := t.literals.push l }

/-- Makes a literal true at the current level. A true literal stays as it is; for a false one there
is no result. -/
def assign (t : Trail) (l : Literal) (reason : Option ClauseRef) : Except Fault (Option Trail) := do
  let fals ← t.isFalsified l
  if fals then .ok none
  else do
    let sat ← t.isSatisfied l
    if sat then .ok (some t)
    else do
      t.requireVar l.var
      .ok (some (t.push l reason))

def openLevel (t : Trail) : Trail := { t with limits := t.limits.push t.literals.size }

/-- Opens a decision level with an unassigned literal. -/
def decide (t : Trail) (l : Literal) : Except Fault Trail := do
  let assigned ← t.isAssigned l
  require (!assigned) .assertionFailed
  t.requireVar l.var
  .ok (t.openLevel.push l none)

/-- Forgets the reason of a variable at level 0. -/
def clearReason (t : Trail) (v : Var) : Except Fault Trail := do
  t.requireVar v
  require (t.levelOf v == 0) .assertionFailed
  .ok { t with reasons := t.reasons.put v none }

/-- Clears what the tables say of a literal, except its place. -/
def unassign (t : Trail) (l : Literal) : Trail :=
  { t with
    truth := t.truth.put l false
    reasons := t.reasons.put l.var none
    levels := t.levels.put l.var 0 }

/-- Takes back every level above the given one: the trail that is left, and the literals that were
unassigned, the latest first. -/
def undoTo (t : Trail) (level : Nat) : Trail × List Literal :=
  match t.limits[level]? with
  | none => (t, [])
  | some cut =>
    let undone := (t.literals.extract cut t.literals.size).toList.reverse
    let cleared := undone.foldl unassign t
    ({ cleared with
        literals := t.literals.extract 0 cut
        limits := t.limits.extract 0 level
        head := min t.head cut },
      undone)

/-- Takes the next literal whose consequences have to be found. -/
def next (t : Trail) : Option (Literal × Trail) :=
  match t.literals[t.head]? with
  | some l => some (l, { t with head := t.head + 1 })
  | none => none

/-- Takes every literal of the trail as propagated. -/
def flush (t : Trail) : Trail := { t with head := t.literals.size }

end Trail
end Cdcl
