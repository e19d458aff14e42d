/-!
# Statistics

What a solver counts while it searches.
-/

namespace Cdcl
set_option autoImplicit false

/-- The counters of a solver. -/
structure Statistics where
  decisions : Nat := 0
  /-- Literals whose watch lists were visited. -/
  propagations : Nat := 0
  conflicts : Nat := 0
  restarts : Nat := 0
  /-- Learnt clauses, units included. -/
  learnt : Nat := 0
  /-- Constraints removed, learnt or not. -/
  deleted : Nat := 0
  /-- How often the learnt clauses were thinned out. -/
  reductions : Nat := 0
deriving DecidableEq

/-- The counters in words. -/
def Statistics.text (s : Statistics) : String :=
  "decisions: " ++ toString s.decisions ++ ", propagations: " ++ toString s.propagations ++
    ", conflicts: " ++ toString s.conflicts ++ ", restarts: " ++ toString s.restarts ++
    ", learnt: " ++ toString s.learnt ++ ", deleted: " ++ toString s.deleted ++
    ", reductions: " ++ toString s.reductions

end Cdcl
