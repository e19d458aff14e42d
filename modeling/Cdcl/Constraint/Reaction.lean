import Cdcl.Constraint

/-!
# How a constraint reacts to a false literal

When a watched literal becomes false, the constraint looks for another literal to watch. If there is
none, the remaining watched literals have to hold. `Constraint.react` gives the constraint with its
literals in their new order and the `Reaction`; it changes neither the trail nor the watch lists.
-/

namespace Cdcl
set_option autoImplicit false

/-- What follows for a constraint when a watched literal becomes false. -/
inductive Reaction where
  /-- The constraint holds already and keeps watching the false literal. -/
  | keep
  /-- The constraint watches another literal instead. -/
  | move (l : Literal)
  /-- The constraint keeps watching the false literal and forces these literals. -/
  | force (ls : List Literal)
  /-- The constraint keeps watching the false literal and is violated. -/
  | conflict
deriving DecidableEq

namespace Constraint

/-- Splits a list at the first literal that is not false. -/
def splitAtOpen (t : Trail) : List Literal →
    Except Fault (Option (List Literal × Literal × List Literal))
  | [] => .ok none
  | l :: ls => do
    let fals ← t.isFalsified l
    if fals then do
      match ← splitAtOpen t ls with
      | some (before, m, after) => .ok (some (l :: before, m, after))
      | none => .ok none
    else .ok (some ([], l, ls))

def someFalsified (t : Trail) : List Literal → Except Fault Bool
  | [] => .ok false
  | l :: ls => do
    let fals ← t.isFalsified l
    if fals then .ok true else someFalsified t ls

/-- A list in which the first occurrence of `l` is replaced by `m`. -/
def replaceFirst (l m : Literal) : List Literal → List Literal
  | [] => []
  | k :: ks => if k = l then m :: ks else k :: replaceFirst l m ks

/-- The other literal of a binary clause. -/
def other (a b l : Literal) : Except Fault Literal :=
  if a = l then .ok b else if b = l then .ok a else .error (.clauseNotWatching l)

/-- Reacts with the false literal in the place of the tail. -/
def reactWatched (t : Trail) (head fals : Literal) (rest : List Literal) :
    Except Fault (Constraint × Reaction) := do
  let sat ← t.isSatisfied head
  if sat then .ok (.watched head fals rest, .keep)
  else
    match ← splitAtOpen t rest with
    | some (before, l, after) => .ok (.watched head l (before ++ fals :: after), .move l)
    | none => .ok (.watched head fals rest, .force [head])

/-- Reacts to a watched literal that became false. -/
def react (c : Constraint) (t : Trail) (fals : Literal) : Except Fault (Constraint × Reaction) :=
  match c with
  | binary a b => do
    t.requireVar fals.var
    let l ← other a b fals
    .ok (c, .force [l])
  | watched h tl rest =>
    if h = fals then reactWatched t tl fals rest
    else if tl = fals then reactWatched t h fals rest
    else .error (.clauseNotWatching fals)
  | atLeast d watch rest => do
    require (watch.contains fals) (.constraintNotWatching fals)
    match ← splitAtOpen t rest with
    | some (before, l, after) =>
      .ok (.atLeast d (replaceFirst fals l watch) (before ++ fals :: after), .move l)
    | none =>
      let others := watch.filter (· != fals)
      let violated ← someFalsified t others
      .ok (c, if violated then .conflict else .force others)

end Constraint
end Cdcl
