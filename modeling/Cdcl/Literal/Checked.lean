import Cdcl.Fault

/-!
# Reading variables and literals

The numbers that name variables and literals come from outside, so reading one can fail.
-/

namespace Cdcl
set_option autoImplicit false

/-- The variable of a number other than 0. -/
def Var.ofNat (n : Nat) : Except Fault Var :=
  if n = 0 then .error .zeroVariable else .ok ⟨n⟩

/-- The literal of a signed number other than 0: the sign is that of the literal, the magnitude,
cut to 31 bits, is its variable. -/
def Literal.ofInt (i : Int) : Except Fault Literal :=
  if i = 0 then .error .zeroLiteral else .ok (Var.literal ⟨i.natAbs⟩ (decide (i < 0)))

/-- The literal of a code that belongs to a variable. -/
def Literal.ofCode (code : Nat) : Except Fault Literal :=
  if code < 2 then .error (.codeWithoutVariable code) else .ok (Literal.decode code)

end Cdcl
