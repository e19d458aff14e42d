import Cdcl.Fault

/-!
# Resolution

`resolve` joins two clauses that hold a variable with opposite signs into the clause of all their
other literals. `ResolutionError` lists what can be wrong with a certificate.
-/

namespace Cdcl
set_option autoImplicit false

/-- Why a certificate is rejected. -/
inductive ResolutionError where
  /-- A clause does not hold the variable that it is resolved on. -/
  | missingVariable (v : Var)
  /-- Both clauses hold the variable with the same sign. -/
  | samePolarity (v : Var)
  /-- A clause was never recorded, or it was deleted. -/
  | danglingClause (id : ClauseId)
  /-- The certificate ends with a clause that has literals. -/
  | notEmpty (id : ClauseId) (clause : List Literal)
  | noRefutation
  /-- No certificate was kept. -/
  | disabled
deriving DecidableEq

def ResolutionError.message : ResolutionError → String
  | missingVariable v => "resolved on missing variable: " ++ v.text
  | samePolarity v => "resolved on variable with same polarity in both clauses: " ++ v.text
  | danglingClause id => "clause " ++ ClauseId.text id ++ " is not available"
  | notEmpty id clause =>
    "final clause " ++ ClauseId.text id ++ " is not empty: " ++ Literal.joined clause
  | noRefutation => "the proof does not derive the empty clause"
  | disabled => "proof logging is not enabled"

/-- The first literal of a variable in a clause. -/
def literalOf (v : Var) (clause : List Literal) : Except ResolutionError Literal :=
  match clause.find? (·.var == v) with
  | some l => .ok l
  | none => .error (.missingVariable v)

/-- The literals of both clauses that do not belong to the variable, in the order of their codes. -/
def resolvent (clause other : List Literal) (v : Var) : List Literal :=
  Literal.canonical ((clause ++ other).filter (·.var != v))

/-- Resolves two clauses on a variable. -/
def resolve (clause other : List Literal) (v : Var) : Except ResolutionError (List Literal) := do
  let pivot ← literalOf v clause
  let opposite ← literalOf v other
  if pivot = opposite then .error (.samePolarity v) else .ok (resolvent clause other v)

end Cdcl
