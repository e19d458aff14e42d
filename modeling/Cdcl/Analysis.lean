import Cdcl.Constraint.Reason
import Cdcl.Store

/-!
# Learning from conflicts

`Analysis.of` turns a violated constraint into a learnt clause. It walks the trail backwards and
replaces each literal of the current level by the literals that forced it, until a single one is
left: the first unique implication point. The learnt clause says that this literal and the literals
of lower levels that were met cannot hold together. Its first literal is the only one of the current
level, and its second one has the highest level among the others, to which the search jumps back.
-/

namespace Cdcl
set_option autoImplicit false

/-- What a conflict teaches. -/
structure Analysis where
  /-- The learnt clause: the literal to assert, then one of the level to return to. -/
  learnt : List Literal
  level : Nat
  /-- The violated constraint and the reasons it was resolved with, in order. -/
  antecedents : List ClauseRef
  steps : List (Var × ClauseRef)
  /-- The variables met above level 0, in order. -/
  met : List Var
  /-- The variables met at level 0, in order. -/
  fixed : List Var

/-- What is kept from one analysis to the next. Nothing is noted in it between analyses. -/
structure Analyzer where
  /-- The variables met and not yet resolved. -/
  seen : VarMap Bool := .empty
  /-- The variables met at level 0, in order. -/
  fixed : List Var := []

/-- Makes room for the variables up to number `vars`. -/
def Analyzer.grow (m : Analyzer) (vars : Nat) : Except Fault Analyzer := do
  let seen ← m.seen.grow vars 1 false
  .ok { m with seen }

namespace Analysis

/-- An analysis under way. -/
structure Progress extends Analyzer where
  /-- How many of the seen variables belong to the current level. -/
  pending : Nat := 0
  /-- The literals of the learnt clause that belong to lower levels. -/
  lower : List Literal := []
  met : List Var := []
  steps : List (Var × ClauseRef) := []

/-- Takes in a true literal that had a part in the conflict. -/
def absorb (t : Trail) (p : Progress) (l : Literal) : Except Fault Progress := do
  let v := l.var
  let seen ← p.seen.get v
  if seen then .ok p
  else
    let p := { p with seen := p.seen.put v true }
    if t.levelOf v = 0 then .ok { p with fixed := p.fixed ++ [v] }
    else if t.levelOf v = t.level then
      .ok { p with met := p.met ++ [v], pending := p.pending + 1 }
    else .ok { p with met := p.met ++ [v], lower := p.lower ++ [-l] }

/-- Takes in true literals that had a part in the conflict. -/
def absorbAll (t : Trail) (p : Progress) : List Literal → Except Fault Progress
  | [] => .ok p
  | l :: ls => do
    let p ← absorb t p l
    absorbAll t p ls

/-- Resolves the literals met among the first `n` of the trail, the latest first, until one of the
current level is left. -/
def resolveBack (t : Trail) (s : Store) : Nat → Progress → Except Fault (Literal × Progress)
  | 0, _ => .error .subtractionOverflow
  | n + 1, p =>
    match t.literals[n]? with
    | none => .error .indexOutOfBounds
    | some l => do
      let seen ← p.seen.get l.var
      if !seen then resolveBack t s n p
      else do
        require (decide (0 < p.pending)) .subtractionOverflow
        let p := { p with seen := p.seen.put l.var false, pending := p.pending - 1 }
        if p.pending = 0 then .ok (l, p)
        else match t.reasonOf l.var with
          | none => .error (.noAntecedent l)
          | some ref => do
            let e ← s.get ref
            let why ← e.constraint.explain t (some l)
            let p ← absorbAll t p why
            resolveBack t s n { p with steps := p.steps ++ [(l.var, ref)] }

/-- The place of the last maximum of a list, and the maximum. -/
def lastMaximum : List Nat → Option (Nat × Nat)
  | [] => none
  | x :: xs =>
    match lastMaximum xs with
    | some (i, m) => if x ≤ m then some (i + 1, m) else some (0, x)
    | none => some (0, x)

/-- A list whose first element has traded places with the one at place `i`. -/
def bringToFront (i : Nat) : List Literal → List Literal
  | [] => []
  | x :: xs =>
    match i with
    | 0 => x :: xs
    | j + 1 =>
      match xs[j]? with
      | some y => y :: xs.set j x
      | none => x :: xs

/-- The literals of lower levels, one of the highest level first, and that level. -/
def arrange (t : Trail) (lower : List Literal) : List Literal × Nat :=
  match lastMaximum (lower.map fun l => t.levelOf l.var) with
  | some (i, level) => (bringToFront i lower, level)
  | none => ([], 0)

/-- A table in which the given variables are not seen. -/
def unsee (seen : VarMap Bool) (vs : List Var) : VarMap Bool :=
  vs.foldl (fun m v => m.put v false) seen

/-- What is kept of an analysis: the variables at level 0 and those of the learnt clause are no
longer seen. -/
def Progress.cleared (p : Progress) : Analyzer where
  seen := unsee (unsee p.seen p.fixed) (p.lower.map (·.var))
  fixed := []

/-- Analyses a violated constraint. -/
def of (t : Trail) (s : Store) (analyzer : Analyzer) (conflict : ClauseRef) :
    Except Fault (Analysis × Analyzer) := do
  require (decide (0 < t.level)) .rootAnalysis
  let e ← s.get conflict
  let why ← e.constraint.explain t none
  let p ← absorbAll t { analyzer with } why
  let (uip, p) ← resolveBack t s t.literals.size p
  let (others, level) := arrange t p.lower
  .ok (⟨-uip :: others, level, conflict :: p.steps.map (·.2), p.steps, p.met, p.fixed⟩, p.cleared)

end Analysis
end Cdcl
