import Cdcl.Solver.Search

/-!
# Enumerating models

`Models.next` gives another model of a formula and adds the clause that excludes it. Once there is
no further model, or the search is given up, the enumeration is over for good. `Models.count`
counts the models.
-/

namespace Cdcl
set_option autoImplicit false

/-- An enumeration of the models of a solver. -/
structure Models where
  solver : Solver
  done : Bool := false

/-- What an enumeration gives. -/
inductive Models.Item where
  | model (m : List Int)
  | timeout
  /-- The steps are used up. -/
  | unfinished

namespace Models

/-- The next model, if any; `fuel` bounds the steps of the search. -/
def next (e : Models) (fuel : Nat) : Except Fault (Option Item × Models) :=
  if e.done then .ok (none, e)
  else do
    let (v, s) ← e.solver.solve fuel []
    match v with
    | .unsatisfiable => .ok (none, ⟨s, true⟩)
    | .timeout => .ok (some .timeout, ⟨s, true⟩)
    | .unfinished => .ok (some .unfinished, ⟨s, true⟩)
    | .satisfiable => do
      let m := s.model.getD []
      let (added, s) ← s.addClause (m.map (- ·))
      .ok (some (.model m), ⟨s, match added with
        | .ok _ => false
        | .error _ => true⟩)

/-- What a count of models gives. -/
inductive Tally where
  /-- There are exactly so many models. -/
  | exact (count : Nat)
  | timeout
  /-- The steps of a search are used up. -/
  | unfinished
deriving DecidableEq

/-- Counts further models up to the end of the enumeration, at most `limit` of them; `count` were
found before. -/
def countFrom (fuel : Nat) : Nat → Nat → Models → Except Fault (Tally × Models)
  | 0, count, e => .ok (.exact count, e)
  | limit + 1, count, e => do
    match ← e.next fuel with
    | (none, e) => .ok (.exact count, e)
    | (some (.model _), e) =>
      countFrom fuel limit (count + 1) { e with solver := e.solver.note (.modelFound (count + 1)) }
    | (some .timeout, e) => .ok (.timeout, e)
    | (some .unfinished, e) => .ok (.unfinished, e)

/-- Counts the models of a solver. Each one is a set of variables, which bounds their number. -/
def count (s : Solver) (fuel : Nat) : Except Fault (Tally × Solver) := do
  let (n, e) ← countFrom fuel (Nat.pow 2 s.numVars + 1) 0 { solver := s }
  .ok (n, e.solver)

end Models
end Cdcl
