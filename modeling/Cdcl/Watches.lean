import Cdcl.Table

/-!
# Watch lists

`Watches` lists for every literal the constraints to visit once the literal becomes false. A
constraint leaves a list by trading places with the last entry.
-/

namespace Cdcl
set_option autoImplicit false

/-- The constraints that watch each literal. -/
structure Watches where
  lists : LiteralMap (Array ClauseRef) := .empty

namespace Watches

/-- The width in bytes of the head of a list. -/
def cellWidth : Nat := 24

/-- Makes room for the literals of the variables up to `vars`. -/
def growTo (w : Watches) (vars : Nat) : Except Fault Watches := do
  let lists ← w.lists.grow vars cellWidth #[]
  .ok ⟨lists⟩

def of (w : Watches) (l : Literal) : Except Fault (Array ClauseRef) := w.lists.get l

/-- Puts a constraint at the end of the list of a literal. -/
def add (w : Watches) (l : Literal) (c : ClauseRef) : Except Fault Watches := do
  let lists ← w.lists.modify l (·.push c)
  .ok ⟨lists⟩

/-- A list without the entry at place `i`, which the last entry takes. -/
def swapRemove (list : Array ClauseRef) (i : Nat) : Array ClauseRef :=
  match list.back? with
  | some last => (list.setIfInBounds i last).pop
  | none => list

/-- A list without the first entry for a constraint. -/
def without (c : ClauseRef) (list : Array ClauseRef) : Array ClauseRef :=
  match list.findIdx? (· == c) with
  | some i => swapRemove list i
  | none => list

/-- Takes a constraint off the list of a literal. -/
def remove (w : Watches) (l : Literal) (c : ClauseRef) : Except Fault Watches := do
  let lists ← w.lists.modify l (without c)
  .ok ⟨lists⟩

/-- Empties the list of a literal. -/
def take (w : Watches) (l : Literal) : Except Fault (Array ClauseRef × Watches) := do
  let list ← w.lists.get l
  .ok (list, ⟨w.lists.put l #[]⟩)

/-- Puts a constraint on the list of every given literal. -/
def addAll (w : Watches) (c : ClauseRef) : List Literal → Except Fault Watches
  | [] => .ok w
  | l :: ls => do
    let w ← w.add l c
    w.addAll c ls

/-- Takes a constraint off the list of every given literal. -/
def removeAll (w : Watches) (c : ClauseRef) : List Literal → Except Fault Watches
  | [] => .ok w
  | l :: ls => do
    let w ← w.remove l c
    w.removeAll c ls

/-- Puts constraints at the end of the list of a literal. -/
def restore (w : Watches) (l : Literal) (cs : List ClauseRef) : Except Fault Watches := do
  let lists ← w.lists.modify l (· ++ cs.toArray)
  .ok ⟨lists⟩

end Watches
end Cdcl
