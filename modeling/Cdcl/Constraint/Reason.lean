import Cdcl.Constraint.Reaction

/-!
# Why a constraint forced a literal

`Constraint.explain` lists the true literals that made a constraint force a literal, or, when no
literal is given, that made it violated: the negations of its false literals. In an at-least
constraint a literal may become false after the forced one; it is then no part of the explanation.
-/

namespace Cdcl.Constraint
set_option autoImplicit false

/-- The negations of the literals other than `implied`, all of which have to be false. -/
def negatedOthers (t : Trail) (implied : Option Literal) :
    List Literal → Except Fault (List Literal)
  | [] => .ok []
  | l :: ls =>
    if some l = implied then negatedOthers t implied ls
    else do
      let fals ← t.isFalsified l
      require fals .assertionFailed
      let rest ← negatedOthers t implied ls
      .ok (-l :: rest)

/-- The negations of the false literals that are no later on the trail than `limit`. -/
def negatedBefore (t : Trail) (limit : Option Nat) : List Literal → Except Fault (List Literal)
  | [] => .ok []
  | l :: ls => do
    let fals ← t.isFalsified l
    if fals then do
      let late ← match limit with
        | some p => do
          let q ← t.positionOf l.var
          .ok (decide (p < q))
        | none => .ok false
      let rest ← negatedBefore t limit ls
      .ok (if late then rest else -l :: rest)
    else negatedBefore t limit ls

/-- The true literals that made the constraint force `implied`, or violated it. -/
def explain (c : Constraint) (t : Trail) (implied : Option Literal) :
    Except Fault (List Literal) :=
  match c with
  | binary a b =>
    match implied with
    | some l => do
      let m ← other a b l
      .ok [-m]
    | none => negatedOthers t none [a, b]
  | watched h tl rest => negatedOthers t implied (h :: tl :: rest)
  | atLeast _ watch rest => do
    let limit ← match implied with
      | some l => do
        let p ← t.positionOf l.var
        .ok (some p)
      | none => .ok none
    negatedBefore t limit (watch ++ rest)

end Cdcl.Constraint
