import Cdcl.Solver.Addition
import Cdcl.Solver.Cleaning

/-!
# Searching

`Solver.step` is one round of the search: it propagates, and then either learns from a conflict,
starts over, decides on a literal, or ends with a `Verdict`. `Solver.run` repeats steps, and
`Solver.solve` runs a whole search under assumptions and returns to level 0. Each takes a bound on
the number of steps, and a search that has used up its steps ends `unfinished`.
-/

namespace Cdcl
set_option autoImplicit false

/-- How a search ends. -/
inductive Verdict where
  | satisfiable
  /-- There is no model of the formula and the assumptions. -/
  | unsatisfiable
  /-- A limit on time or conflicts was reached. -/
  | timeout
  /-- The steps are used up. -/
  | unfinished
deriving DecidableEq

/-- The limits of one search. -/
structure Budget where
  /-- The reading of the clock, in nanoseconds, at which the search is given up. -/
  deadline : Option Nat
  /-- The number of conflicts, earlier ones included, at which the search is given up. -/
  maxConflicts : Option Nat

/-- Whether a search has to be given up after so many conflicts, when the clock shows `now`. -/
def Budget.exhausted (b : Budget) (conflicts now : Nat) : Bool :=
  b.maxConflicts.any (decide <| · ≤ conflicts) || b.deadline.any (decide <| · ≤ now)

/-- The part of a search between two restarts. -/
structure Round where
  /-- After how many conflicts to start over. -/
  interval : Option Nat
  /-- The conflicts met since the last restart. -/
  conflicts : Nat := 0

/-- Whether it is time to start over. -/
def Round.isOver (r : Round) : Bool :=
  match r.interval with
  | some limit => decide (limit ≤ r.conflicts)
  | none => false

/-- What follows a step. -/
inductive Outcome where
  | goOn (r : Round)
  | finish (v : Verdict)

namespace Solver

/-! ## Conflicts -/

/-- Finds out what a conflict teaches; the number is that of the learnt clause in the certificate.
-/
def analyze (s : Solver) (conflict : ClauseRef) :
    Except Fault (Analysis × Option ClauseId × Solver) := do
  let (a, analyzer) ← Analysis.of s.trail s.store s.analyzer conflict
  let order ← s.order.bumpAll a.met
  let s := { s with analyzer }.setOrder order
  require (!a.steps.isEmpty || !a.fixed.isEmpty || s.certificate.isNone) .learntIsConflict
  let (id, s) ← s.certifyClause fun c => c.deriveLearnt s.store conflict a.steps a.fixed
  .ok (a, id, s.note (.learnt a.learnt a.level))

/-- Returns to an earlier level, stores the learnt clause and asserts its first literal. -/
def learn (s : Solver) (a : Analysis) (id : Option ClauseId) : Except Fault Solver := do
  let s ← s.bumpLearnts a.antecedents
  let s ← s.backtrack a.level
  let s ← match a.learnt with
    | [] => .ok s
    | [l] => do
      let s ← s.assert l none (.falseAsserting l)
      s.certify fun c => c.setUnit l.var id
    | l :: ls => do
      let c ← Constraint.clause (l :: ls)
      let (ref, s) ← s.insertConstraint ⟨c, 0.0, true, id⟩
      let s ← (s.keepLearnt ref).bumpClause ref
      s.assert l (some ref) (.falseAsserting l)
  .ok { s with stats := { s.stats with learnt := s.stats.learnt + 1 } }

/-- Deals with a violated constraint. -/
def onConflict (b : Budget) (r : Round) (conflict : ClauseRef) (s : Solver) :
    Except Fault (Outcome × Solver) := do
  let s := { s with stats := { s.stats with conflicts := s.stats.conflicts + 1 } }
  if s.trail.level = 0 then do
    let s ← s.rootConflict conflict
    .ok (.finish .unsatisfiable, s)
  else do
    let (a, id, s) ← s.analyze conflict
    let s ← s.learn a id
    let s := { s with
      order := s.order.decayed
      clauseIncrement := s.clauseIncrement / s.config.clauseDecay }
    if b.exhausted s.stats.conflicts s.now then .ok (.finish .timeout, s)
    else .ok (.goOn { r with conflicts := r.conflicts + 1 }, s)

/-! ## Decisions -/

/-- Starts over at level 0 with the next restart interval. -/
def restart (b : Budget) (s : Solver) : Except Fault (Outcome × Solver) := do
  let s ← s.backtrack 0
  let s := { s with
    stats := { s.stats with restarts := s.stats.restarts + 1 }
    maxLearnts := s.maxLearnts * 1.1 }
  let s := s.note
    (.restarted s.stats.restarts s.stats.conflicts s.numLearnts s.formulaSize s.numVars)
  if b.exhausted s.stats.conflicts s.now then .ok (.finish .timeout, s)
  else do
    let (interval, restarts) ← s.restarts.next
    .ok (.goOn { interval }, { s with restarts })

/-- Whether there are too many learnt clauses, given how much of the assignment they led to. -/
def hasTooManyLearnts (s : Solver) : Bool :=
  s.maxLearnts ≤ countToFloat s.numLearnts - countToFloat s.trail.literals.size

/-- Opens a level with a literal. -/
def decideOn (r : Round) (l : Literal) (s : Solver) : Except Fault (Outcome × Solver) := do
  let s := s.note (.deciding l (s.trail.level + 1))
  let (size, t, s) := s.takeTrail
  let t ← t.decide l
  .ok (.goOn r, { s with kernel := { s.kernel with trail := t } }.noteAll (assignments size t))

/-- Decides on the next literal of the order. -/
def branch (r : Round) (s : Solver) : Except Fault (Outcome × Solver) := do
  let (picked, order) ← s.order.select s.trail
  let s := { s with order }
  match picked with
  | none => .ok (.finish .satisfiable, { s with model := some s.trail.model })
  | some l =>
    decideOn r l { s with stats := { s.stats with decisions := s.stats.decisions + 1 } }

/-- Decides on the assumption of the level to come, or else on the next literal of the order. An
assumption that holds already gets a level of its own. -/
def choose (assumptions : List Literal) (r : Round) (s : Solver) :
    Except Fault (Outcome × Solver) :=
  match assumptions[s.trail.level]? with
  | none => branch r s
  | some l => do
    let sat ← s.trail.isSatisfied l
    if sat then .ok (.goOn r, { s with kernel := { s.kernel with trail := s.trail.openLevel } })
    else do
      let fals ← s.trail.isFalsified l
      if fals then .ok (.finish .unsatisfiable, s.note (.assumptionFails l))
      else decideOn r l s

/-- Goes on from an assignment whose consequences are all found. -/
def onFixpoint (b : Budget) (assumptions : List Literal) (r : Round) (s : Solver) :
    Except Fault (Outcome × Solver) := do
  let s ← if s.trail.level = 0 then do
      let s ← s.recordRoot
      s.simplify
    else .ok s
  if r.isOver then restart b s
  else do
    let s ← if s.hasTooManyLearnts then s.reduce else .ok s
    choose assumptions r s

/-! ## Whole searches -/

/-- One round of the search. -/
def step (b : Budget) (assumptions : List Literal) (r : Round) (s : Solver) :
    Except Fault (Outcome × Solver) := do
  match ← s.propagate with
  | (some conflict, s) => onConflict b r conflict s
  | (none, s) => onFixpoint b assumptions r s

/-- Repeats rounds of the search, at most `fuel` times. -/
def run (b : Budget) (assumptions : List Literal) : Nat → Round → Solver →
    Except Fault (Verdict × Solver)
  | 0, _, s => .ok (.unfinished, s)
  | fuel + 1, r, s => do
    match ← step b assumptions r s with
    | (.finish v, s) => .ok (v, s)
    | (.goOn r, s) => run b assumptions fuel r s

/-- More steps than any search can take in practice. -/
def ampleSteps : Nat := 0x4000000000000000

/-- The larger of two limits on learnt clauses; a limit that is no number does not count. -/
def largerLimit (a b : Float) : Float := if a.isNaN || a < b then b else a

/-- Points in time before this many nanoseconds on the clock can be told apart: its seconds are a
signed 64 bit number. -/
def deadlineLimit : Nat := Word.addressable * 1000000000

/-- The limits of a search that starts now. -/
def budget (s : Solver) : Except Fault Budget := do
  let deadline ← match s.timeLimit with
    | none => .ok none
    | some limit => do
      require (decide (s.now + limit < deadlineLimit)) .deadlineOverflow
      .ok (some (s.now + limit))
  let maxConflicts ← match s.conflictLimit with
    | none => .ok none
    | some max => do
      let sum ← Word.add s.stats.conflicts max
      .ok (some sum)
  .ok { deadline, maxConflicts }

def verdictNotice : Verdict → Notice
  | .satisfiable => .satisfiable
  | .unsatisfiable => .unsatisfiable
  | .timeout | .unfinished => .failed SolverError.timeout.message

/-- Searches for a model of the formula in which the assumptions hold, in at most `fuel` steps. The
solver is at level 0 afterwards. -/
def solve (s : Solver) (fuel : Nat) (assumptions : List Int) :
    Except Fault (Verdict × Solver) := do
  let s := { s with model := none }
  if s.refuted then .ok (.unsatisfiable, s.note .knownUnsatisfiable)
  else do
    let ls ← s.literals assumptions
    let b ← s.budget
    let maxLearnts := largerLimit (countToFloat s.formulaSize * s.config.learntRatio)
      (countToFloat s.config.minLearnts)
    let s := { s with maxLearnts }.note (.solving s.numVars s.formulaSize ls.length)
    let (interval, restarts) ← s.restarts.next
    let (v, s) ← run b ls fuel { interval } { s with restarts }
    let s ← s.backtrack 0
    .ok (v, (s.note (verdictNotice v)).note (.counted s.statistics))

/-! ## Certificates -/

/-- Replays the certificate of a refutation. -/
def replay (s : Solver) : Except Fault Replay :=
  match s.certificate with
  | none => .ok ⟨[], ⟨#[]⟩, .error .disabled⟩
  | some c => c.replay

/-- The notices of a replay. -/
def replayNotices (s : Solver) (r : Replay) : List Notice :=
  Notice.ofCheck (s.certificate.bind Certificate.empty) r.outcome.isOk

/-- Whether the certificate shows that the formula is unsatisfiable. -/
def checkCertificate (s : Solver) : Except Fault (Except ResolutionError Unit) := do
  let r ← s.replay
  .ok r.outcome

end Solver
end Cdcl
