import Cdcl.Solver.State

/-!
# Removing constraints

`reduce` thins out the learnt clauses, the least active ones first; binary clauses and reasons stay.
`simplify` removes every constraint that holds at level 0. `bumpClause` makes a learnt clause more
active.
-/

namespace Cdcl.Solver
set_option autoImplicit false

/-- Clause activities stay below this limit. -/
def clauseRescaleLimit : Float := 1e20

/-- Scales down the activities of clauses. -/
def rescaleClauses (store : Store) : List ClauseRef → Store
  | [] => store
  | ref :: refs =>
    match store.get? ref with
    | some e =>
      rescaleClauses (store.put ref { e with activity := e.activity / clauseRescaleLimit }) refs
    | none => rescaleClauses store refs

/-- Makes a learnt clause more active. -/
def bumpClause (s : Solver) (ref : ClauseRef) : Except Fault Solver := do
  let e ← s.store.get ref
  let activity := e.activity + s.clauseIncrement
  let store := s.store.put ref { e with activity }
  if clauseRescaleLimit < activity then
    .ok { s with
      kernel := { s.kernel with store := rescaleClauses store s.learnts }
      clauseIncrement := s.clauseIncrement / clauseRescaleLimit }
  else .ok { s with kernel := { s.kernel with store } }

def bumpLearnts (s : Solver) : List ClauseRef → Except Fault Solver
  | [] => .ok s
  | ref :: refs => do
    let e ← s.store.get ref
    let s ← if e.learnt then s.bumpClause ref else .ok s
    s.bumpLearnts refs

/-- A number whose order is that of doubles, with -0 below +0. NaN comes first or last. -/
def activityRank (nanLast : Bool) (x : Float) : Int :=
  if x.isNaN then (if nanLast then (Word.limit : Int) else -(Word.limit : Int))
  else
    let bits := x.toBits.toNat
    if bits < Word.addressable then bits else (Word.addressable : Int) - bits - 1

/-- Whether a learnt clause is to be removed no later than another one: binary clauses come last,
and others by their activity. An activity that is no number comes last if the decay factor is
none, and first otherwise. -/
def removedBefore (nanLast : Bool) (a b : ClauseRef × Stored) : Bool :=
  let binaryA := a.2.constraint.isBinary
  let binaryB := b.2.constraint.isBinary
  if binaryA != binaryB then binaryB
  else decide (activityRank nanLast a.2.activity ≤ activityRank nanLast b.2.activity)

def entriesOf (store : Store) : List ClauseRef → Except Fault (List (ClauseRef × Stored))
  | [] => .ok []
  | ref :: refs => do
    let e ← store.get ref
    let rest ← entriesOf store refs
    .ok ((ref, e) :: rest)

/-- Puts a clause at the end of the learnt ones. -/
def keepLearnt (s : Solver) (ref : ClauseRef) : Solver := { s with learnts := s.learnts ++ [ref] }

/-- Goes through sorted learnt clauses, of which the first `quota` are the least active half.
Removes those of this half, and those whose activity is below `extra`, unless they are binary or
reasons; the others are kept in order. -/
def removeInactive (s : Solver) (extra : Float) : Nat → List (ClauseRef × Stored) →
    Except Fault Solver
  | _, [] => .ok s
  | quota, (ref, e) :: rest => do
    let removable ←
      if e.constraint.isBinary then .ok false
      else do
        let locked ← e.constraint.isLocked ref s.trail
        .ok (!locked && (decide (0 < quota) || decide (e.activity < extra)))
    if removable then do
      let s ← s.removeConstraint ref
      s.removeInactive extra (quota - 1) rest
    else (s.keepLearnt ref).removeInactive extra (quota - 1) rest

/-- Removes about half of the learnt clauses. -/
def reduce (s : Solver) : Except Fault Solver := do
  let before := s.learnts.length
  let extra := s.clauseIncrement / countToFloat before
  let entries ← entriesOf s.store s.learnts
  let sorted := entries.mergeSort (removedBefore s.config.clauseDecay.isNaN)
  let s ← { s with learnts := [] }.removeInactive extra (before / 2) sorted
  let s := { s with stats := { s.stats with reductions := s.stats.reductions + 1 } }
  .ok (s.note (.reduced before s.learnts.length))

/-- The constraints that hold at level 0. -/
def redundant (t : Trail) : List (ClauseRef × Stored) → Except Fault (List (ClauseRef × Stored))
  | [] => .ok []
  | (ref, e) :: rest => do
    let holds ← e.constraint.isRedundant t
    let others ← redundant t rest
    .ok (if holds then (ref, e) :: others else others)

/-- Forgets a constraint as the reason of its literals. -/
def clearReasons (ref : ClauseRef) : List Literal → Trail → Except Fault Trail
  | [], t => .ok t
  | l :: ls, t => do
    let t ← if t.reasonOf l.var == some ref then t.clearReason l.var else .ok t
    clearReasons ref ls t

/-- Removes constraints that hold at level 0. -/
def removeRedundant (s : Solver) : List (ClauseRef × Stored) → Except Fault Solver
  | [] => .ok s
  | (ref, e) :: rest => do
    let t ← clearReasons ref e.constraint.literals s.trail
    let s ← { s with kernel := { s.kernel with trail := t } }.removeConstraint ref
    s.removeRedundant rest

/-- Removes every constraint that holds at level 0, if a literal was fixed since the last time. -/
def simplify (s : Solver) : Except Fault Solver :=
  if s.trail.literals.size = s.simplified then .ok s
  else do
    let found ← redundant s.trail s.store.entries
    let s ← s.removeRedundant found
    let s := { s with
      learnts := s.learnts.filter s.store.contains
      simplified := s.trail.literals.size }
    .ok (s.note (.simplified found.length))

end Cdcl.Solver
