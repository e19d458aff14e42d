/-!
# References to stored constraints

`ClauseRef` names a slot of the constraint store; `ClauseId` numbers the clauses of a certificate.
The two are independent: a constraint may leave the store while its clause stays in the certificate.
-/

namespace Cdcl
set_option autoImplicit false

/-- Names a slot of the constraint store. -/
structure ClauseRef where
  index : Nat
deriving DecidableEq, Hashable

/-- Reads a reference from a number, of which it keeps the 32 low bits. -/
def ClauseRef.ofIndex (n : Nat) : ClauseRef := ⟨n % 0x100000000⟩

def ClauseRef.text (c : ClauseRef) : String := "c" ++ toString c.index

/-- Numbers the clauses of a certificate from 0, in the order in which they are recorded. -/
abbrev ClauseId := Nat

def ClauseId.text (id : ClauseId) : String := "#" ++ toString id

end Cdcl
