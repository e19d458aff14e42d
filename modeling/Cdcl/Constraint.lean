import Cdcl.Trail

/-!
# Constraints

A `Constraint` demands that at least `degree` of its literals hold. Clauses have degree 1: a binary
clause has two literals, a watched clause three or more. In a watched clause only the two first
literals are watched, the head and the tail; in an at-least constraint it is one literal more than
its degree.

The order of the literals changes while watches move. `Constraint.key` is what stays the same: two
constraints with one key demand the same.
-/

namespace Cdcl
set_option autoImplicit false

/-- At least so many of these literals hold. -/
inductive Constraint where
  | binary (first second : Literal)
  /-- One of three or more literals holds; the first two are watched. -/
  | watched (head tail : Literal) (rest : List Literal)
  /-- At least `degree` literals hold; `watch` has one literal more than that. -/
  | atLeast (degree : Nat) (watch rest : List Literal)
deriving DecidableEq

/-- A constraint apart from the order of its literals. -/
structure ConstraintKey where
  degree : Nat
  literals : List Literal
deriving DecidableEq, Hashable

namespace Constraint

/-- The clause of at least two literals. -/
def clause : List Literal → Except Fault Constraint
  | [] => .error .shortClause
  | [_] => .error .shortClause
  | [l, m] => do
    require (!l.sameVar m) .assertionFailed
    .ok (.binary l m)
  | l :: m :: n :: rest => .ok (.watched l m (n :: rest))

/-- The constraint that at least `degree` literals hold, where `degree` is positive and less than
the number of literals. -/
def atLeastOf (literals : List Literal) (degree : Nat) : Except Fault Constraint := do
  require (decide (1 ≤ degree ∧ degree < literals.length)) .assertionFailed
  .ok (.atLeast degree (literals.take (degree + 1)) (literals.drop (degree + 1)))

/-- All literals, the watched ones first. -/
def literals : Constraint → List Literal
  | binary a b => [a, b]
  | watched h t rest => h :: t :: rest
  | atLeast _ watch rest => watch ++ rest

/-- The literals on whose lists the constraint belongs. -/
def watching : Constraint → List Literal
  | binary a b => [a, b]
  | watched h t _ => [h, t]
  | atLeast _ watch _ => watch

/-- How many literals have to hold. -/
def degree : Constraint → Nat
  | atLeast d _ _ => d
  | _ => 1

def isBinary : Constraint → Bool
  | binary .. => true
  | _ => false

def sorted (c : Constraint) : List Literal := Literal.sort c.literals

/-- What the constraint demands, whatever the order of its literals. -/
def key (c : Constraint) : ConstraintKey := ⟨c.degree, c.sorted⟩

/-- Whether a literal is true at level 0. -/
def fixed (t : Trail) (l : Literal) : Except Fault Bool := do
  let sat ← t.isSatisfied l
  .ok (sat && t.levelOf l.var == 0)

def fixedCount (t : Trail) : List Literal → Except Fault Nat
  | [] => .ok 0
  | l :: ls => do
    let here ← fixed t l
    let others ← fixedCount t ls
    .ok (others + here.toNat)

def someFixed (t : Trail) : List Literal → Except Fault Bool
  | [] => .ok false
  | l :: ls => do
    let here ← fixed t l
    if here then .ok true else someFixed t ls

/-- Whether the constraint holds for good because of literals that are true at level 0. -/
def isRedundant (c : Constraint) (t : Trail) : Except Fault Bool :=
  match c with
  | atLeast d watch rest => do
    let n ← fixedCount t (watch ++ rest)
    .ok (decide (d ≤ n))
  | c => someFixed t c.literals

/-- Whether one of the literals is true because of the constraint `ref`. -/
def someForced (ref : ClauseRef) (t : Trail) : List Literal → Except Fault Bool
  | [] => .ok false
  | l :: ls => do
    let sat ← t.isSatisfied l
    if sat && t.reasonOf l.var == some ref then .ok true else someForced ref t ls

/-- Whether the constraint, stored at `ref`, is the reason of a literal that it watches. Such a
constraint must stay in the store. -/
def isLocked (c : Constraint) (ref : ClauseRef) (t : Trail) : Except Fault Bool :=
  someForced ref t c.watching

end Constraint
end Cdcl
