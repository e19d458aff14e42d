import Cdcl.Resolution.Checker
import Cdcl.Resolution.Log

/-!
# Replaying a log

`Log.traverse` hands the records of a log to a checker, in order, until the clause of a goal is
recorded. `Log.check` replays a log and demands that the clause of the goal is empty. A `Replay`
keeps what was visited along the way.
-/

namespace Cdcl
set_option autoImplicit false

/-- What happened to one record. -/
inductive Visit where
  /-- The record was taken; a chain shows the clause it derived. -/
  | accepted (e : Event) (derived : Option (List Literal))
  /-- The record was rejected. -/
  | rejected (e : Event) (reason : ResolutionError)
  | done

/-- The course and the outcome of a replay. -/
structure Replay where
  visited : List Visit := []
  checker : Checker := ⟨#[]⟩
  outcome : Except ResolutionError Unit

namespace Log

/-- The clause number that ends a replay: the given goal, or else the last clause. -/
def target (g : Log) (goal : Option ClauseId) : Option ClauseId := goal.or g.last

/-- The clause number that an event records, if any. -/
def recorded : Event → Option ClauseId
  | .root id _ => some id
  | .chain id _ _ => some id
  | .deleted _ => none

/-- The clause that a visited chain has derived. -/
def derived (k : Checker) : Event → Option (List Literal)
  | .chain id _ _ => (k.clause id).toOption
  | _ => none

/-- Visits events until the goal is recorded. When the events end before that, the replay fails,
with the fault at which reading the log stopped if there is one. -/
def follow (goal : ClauseId) (stop : Option Fault) : Checker → List Event → Except Fault Replay
  | k, [] =>
    match stop with
    | some f => .error f
    | none => .ok ⟨[], k, .error (.danglingClause goal)⟩
  | k, e :: es => do
    match ← k.visit e with
    | (.error reason, k) => .ok ⟨[.rejected e reason], k, .error reason⟩
    | (.ok (), k) =>
      let v := Visit.accepted e (derived k e)
      if recorded e = some goal then .ok ⟨[v, .done], k, .ok ()⟩
      else do
        let r ← follow goal stop k es
        .ok { r with visited := v :: r.visited }

/-- Replays the log up to the goal, or up to the last clause. -/
def traverse (g : Log) (goal : Option ClauseId) : Except Fault Replay :=
  match g.target goal with
  | none => .ok ⟨[], ⟨#[]⟩, .error .noRefutation⟩
  | some id => let (events, stop) := g.decode; follow id stop ⟨#[]⟩ events

/-- What remains to be said of a goal once it is reached: its clause has to be empty. -/
def judge (id : ClauseId) (r : Replay) : Except ResolutionError Unit := do
  r.outcome
  let c ← r.checker.clause id
  if c.isEmpty then .ok () else .error (.notEmpty id c)

/-- Replays the log and demands that the goal, or the last clause, is the empty clause. -/
def checkReplay (g : Log) (goal : Option ClauseId) : Except Fault Replay := do
  let r ← g.traverse goal
  match g.target goal with
  | none => .ok r
  | some id => .ok { r with outcome := judge id r }

/-- Whether the log derives the empty clause at the goal, or at the last clause. -/
def check (g : Log) (goal : Option ClauseId) : Except Fault (Except ResolutionError Unit) := do
  let r ← g.checkReplay goal
  .ok r.outcome

end Log
end Cdcl
