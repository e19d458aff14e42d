import Cdcl.Constraint

/-!
# Taking in constraints

Before a constraint is stored it is reduced under the current assignment. `Intake.clause` drops
false literals and repetitions of a clause, and `Intake.atLeast` also counts true literals and
complementary pairs towards the degree. What is left is nothing, literals that have to hold, or a
constraint over unassigned variables; or it cannot hold at all, which is a `Contradiction`.
-/

namespace Cdcl
set_option autoImplicit false

/-- Why constraints cannot hold together. -/
inductive Contradiction where
  /-- Every literal of a clause is false. -/
  | emptyClause
  /-- Too few literals of an at-least constraint can hold. -/
  | unreachableDegree
  /-- The consequences of a literal violate a constraint. -/
  | unitConflict
  | earlier
deriving DecidableEq

def Contradiction.message : Contradiction → String
  | emptyClause => "creating empty clause"
  | unreachableDegree => "cardinality constraint cannot be satisfied"
  | unitConflict => "unit conflicts with level 0"
  | earlier => "the formula is already unsatisfiable"

namespace Intake

/-- What is left of a clause. -/
inductive ClauseForm where
  | satisfied
  /-- The literal has to hold. -/
  | unit (l : Literal)
  /-- Two or more literals of distinct unassigned variables, in the order of their codes. -/
  | clause (ls : List Literal)
deriving DecidableEq

/-- What is left of an at-least constraint. -/
inductive AtLeastForm where
  | satisfied
  /-- All the literals have to hold. -/
  | units (ls : List Literal)
  /-- A single literal has to hold, so this is a clause. -/
  | clause (form : ClauseForm)
  /-- At least `degree` literals have to hold, which is more than one and not all of them. -/
  | atLeast (ls : List Literal) (degree : Nat)
deriving DecidableEq

def someSatisfied (t : Trail) : List Literal → Except Fault Bool
  | [] => .ok false
  | l :: ls => do
    let sat ← t.isSatisfied l
    if sat then .ok true else someSatisfied t ls

/-- The literals that are not false. -/
def dropFalsified (t : Trail) : List Literal → Except Fault (List Literal)
  | [] => .ok []
  | l :: ls => do
    let fals ← t.isFalsified l
    let rest ← dropFalsified t ls
    .ok (if fals then rest else l :: rest)

/-- Whether two neighbours are the literals of one variable. -/
def hasPair : List Literal → Bool
  | l :: m :: ms => l == -m || hasPair (m :: ms)
  | _ => false

/-- The form of a clause whose literals are unassigned and ascend strictly. -/
def classify (ls : List Literal) : Except Contradiction ClauseForm :=
  if hasPair ls then .ok .satisfied
  else match ls with
    | [] => .error .emptyClause
    | [l] => .ok (.unit l)
    | ls => .ok (.clause ls)

def clause (ls : List Literal) (t : Trail) : Except Fault (Except Contradiction ClauseForm) := do
  let sat ← someSatisfied t ls
  if sat then .ok (.ok .satisfied)
  else do
    let rest ← dropFalsified t ls
    .ok (classify (Literal.canonical rest))

/-- Reads a degree as a signed word of 64 bits. -/
def signedDegree (degree : Nat) : Int :=
  if degree < Word.addressable then degree else (degree : Int) - Word.limit

/-- One less, unless that is below every signed word. -/
def lower (degree : Int) : Except Fault Int :=
  if degree ≤ -(Word.addressable : Int) then .error .subtractionOverflow else .ok (degree - 1)

/-- The degree less the number of true literals, and the unassigned literals. -/
def countSatisfied (t : Trail) : Int → List Literal → Except Fault (Int × List Literal)
  | degree, [] => .ok (degree, [])
  | degree, l :: ls => do
    let sat ← t.isSatisfied l
    if sat then do
      let degree ← lower degree
      countSatisfied t degree ls
    else do
      let fals ← t.isFalsified l
      let (degree, rest) ← countSatisfied t degree ls
      .ok (degree, if fals then rest else l :: rest)

/-- Cancels neighbours that are the literals of one variable against each other; exactly one of them
holds, so each such pair lowers the degree. `kept` holds the literals passed so far, the last one
first. -/
def cancelPairs : Int → List Literal → List Literal → Except Fault (Int × List Literal)
  | degree, kept, [] => .ok (degree, kept.reverse)
  | degree, k :: kept, l :: ls =>
    if k = -l then do
      let degree ← lower degree
      cancelPairs degree kept ls
    else cancelPairs degree (l :: k :: kept) ls
  | degree, [], l :: ls => cancelPairs degree [l] ls

/-- The form of an at-least constraint over unassigned literals that ascend strictly and hold no
complementary pair. -/
def classifyAtLeast (degree : Int) (ls : List Literal) (t : Trail) :
    Except Fault (Except Contradiction AtLeastForm) :=
  if degree ≤ 0 then .ok (.ok .satisfied)
  else if (ls.length : Int) < degree then .ok (.error .unreachableDegree)
  else if degree = ls.length then .ok (.ok (.units ls))
  else if degree = 1 then do
    match ← clause ls t with
    | .ok form => .ok (.ok (.clause form))
    | .error e => .ok (.error e)
  else .ok (.ok (.atLeast ls degree.toNat))

/-- Takes in the constraint that at least `degree` literals hold. -/
def atLeast (ls : List Literal) (degree : Nat) (t : Trail) :
    Except Fault (Except Contradiction AtLeastForm) := do
  let (degree, opened) ← countSatisfied t (signedDegree degree) ls
  let (degree, kept) ← cancelPairs degree [] (Literal.canonical opened)
  classifyAtLeast degree kept t

end Intake
end Cdcl
