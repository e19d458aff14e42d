import Cdcl.Literal
import Cdcl.ClauseRef
import Cdcl.Text.Expansion

/-!
# Faults

A `Fault` is a broken promise: an operation was called outside of what it is for, or an invariant
does not hold. It ends a computation at once and is told apart from the ordinary outcomes of a
search (a contradiction, an exhausted budget, a rejected certificate), which are values.
-/

namespace Cdcl
set_option autoImplicit false

/-- Why a computation had to be given up. -/
inductive Fault where
  | zeroLiteral
  | zeroVariable
  /-- The codes 0 and 1 belong to no variable. -/
  | codeWithoutVariable (code : Nat)
  /-- A table has no cell for a variable or literal. -/
  | indexOutOfBounds
  | capacityOverflow
  | additionOverflow
  | subtractionOverflow
  | multiplicationOverflow
  /-- A deadline lies beyond the end of time. -/
  | deadlineOverflow
  /-- A time limit is negative, too long or no number. -/
  | durationOutOfRange
  /-- A requirement that has no wording of its own. -/
  | assertionFailed
  /-- A clause was told of a literal that it does not watch. -/
  | clauseNotWatching (l : Literal)
  /-- An at-least constraint was told of a literal that it does not watch. -/
  | constraintNotWatching (l : Literal)
  | shortClause
  /-- A constraint was read after it was removed. -/
  | danglingRef (c : ClauseRef)
  /-- The bits of a decay factor outside of the interval from 0 to 1. -/
  | decayOutOfRange (bits : UInt64)
  /-- The factor of a geometric restart sequence is below 1. -/
  | shrinkingIntervals
  | resolveOutsideChain
  | deletingUnknown (id : ClauseId)
  | unterminatedRecord
  /-- A checker expects the clauses in the order of their numbers. -/
  | idsOutOfOrder
  /-- A formula names a variable that the solver does not have. -/
  | literalOutOfRange (raw : Int) (vars : Nat)
  /-- A certificate has to hold every constraint. -/
  | certificateTooLate
  | falseUnit (l : Literal)
  /-- The asserting literal of a learnt clause is false after the backjump. -/
  | falseAsserting (l : Literal)
  /-- A decision turned up where a reason is needed. -/
  | noAntecedent (l : Literal)
  /-- A conflict without decisions has nothing to learn from. -/
  | rootAnalysis
  /-- An analysis ended where it began. -/
  | learntIsConflict
  /-- A variable fixed at level 0 has no unit clause in the certificate. -/
  | missingUnit (v : Var)
  /-- A literal is fixed at level 0, but nothing tells why. -/
  | rootWithoutReason (l : Literal)
  /-- A stored constraint is missing from the certificate. -/
  | missingClauseId
deriving DecidableEq

def Fault.message : Fault → String
  | zeroLiteral => "cannot create literal with id 0"
  | zeroVariable => "variables are numbered from 1"
  | codeWithoutVariable code => "literal code " ++ toString code ++ " has no variable"
  | indexOutOfBounds => "index out of bounds"
  | capacityOverflow => "capacity overflow"
  | additionOverflow => "attempt to add with overflow"
  | subtractionOverflow => "attempt to subtract with overflow"
  | multiplicationOverflow => "attempt to multiply with overflow"
  | deadlineOverflow => "overflow when adding duration to instant"
  | durationOutOfRange => "time limit out of range"
  | assertionFailed => "assertion failed"
  | clauseNotWatching l => "assertion failed: clause does not watch " ++ l.text
  | constraintNotWatching l => "constraint does not watch " ++ l.text
  | shortClause => "stored clauses have at least two literals"
  | danglingRef c => "dangling clause reference " ++ c.text
  | decayOutOfRange bits =>
    "decay factor " ++ Text.Expansion.ofDouble (.ofBits bits) ++ " out of range"
  | shrinkingIntervals => "restart intervals may not shrink"
  | resolveOutsideChain => "resolve outside of a chain"
  | deletingUnknown id => "deleting unknown clause " ++ ClauseId.text id
  | unterminatedRecord => "proof record is not terminated"
  | idsOutOfOrder => "assertion failed: ids out of order"
  | literalOutOfRange raw vars =>
    "literal " ++ toString raw ++ " is out of range, there are " ++ toString vars ++ " variables"
  | certificateTooLate => "proof logging has to be enabled before adding constraints"
  | falseUnit l => "unit " ++ l.text ++ " is already false"
  | falseAsserting l => "asserting literal " ++ l.text ++ " is false"
  | noAntecedent l => "no antecedent for " ++ l.text ++ " while resolving a conflict"
  | rootAnalysis => "conflicts at level 0 cannot be analysed"
  | learntIsConflict => "learnt clause is the conflict itself"
  | missingUnit v => "no unit clause derived for " ++ v.text
  | rootWithoutReason l => l.text ++ " is fixed at level 0 without a reason"
  | missingClauseId => "stored constraint without proof id"

/-- Goes on only if a requirement holds. -/
def require (ok : Bool) (f : Fault) : Except Fault Unit :=
  if ok then .ok () else .error f

@[simp] theorem require_true (f : Fault) : require true f = .ok () := rfl

@[simp] theorem require_false (f : Fault) : require false f = .error f := rfl

theorem require_eq_ok_iff {ok : Bool} {f : Fault} {u : Unit} :
    require ok f = .ok u ↔ ok = true := by
  cases ok with
  | false => simp
  | true => simp

/-- A computation succeeds if its first part does and the rest goes on from there. -/
theorem bind_eq_ok_iff {α β : Type} {x : Except Fault α} {f : α → Except Fault β} {b : β} :
    (x >>= f) = .ok b ↔ ∃ a, x = .ok a ∧ f a = .ok b := by
  cases x with
  | error e => simp [bind, Except.bind]
  | ok a => simp [bind, Except.bind]

end Cdcl
