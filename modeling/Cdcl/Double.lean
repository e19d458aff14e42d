/-!
# The parts of a double

`Double` holds the sign, the exponent and the mantissa of a number of type `Float`. A finite one is
`significand * 2 ^ (scale - 1075)` apart from its sign.
-/

namespace Cdcl
set_option autoImplicit false

/-- The three fields of a double. -/
structure Double where
  negative : Bool
  /-- The exponent as it is stored, below 2048. -/
  exponent : Nat
  /-- The 52 stored bits of the mantissa. -/
  mantissa : Nat

namespace Double

/-- The number of mantissas, which is also the bit that is not stored. -/
def hiddenBit : Nat := 0x10000000000000

/-- The stored exponent of the values that are not finite. -/
def topExponent : Nat := 2047

/-- Takes the bits of a double apart. -/
def ofBits (bits : UInt64) : Double :=
  let high := bits.toNat / hiddenBit
  ⟨high / 2048 == 1, high % 2048, bits.toNat % hiddenBit⟩

/-- The whole number that a finite double scales. -/
def significand (d : Double) : Nat :=
  if d.exponent = 0 then d.mantissa else d.mantissa + hiddenBit

/-- The power of two that scales it, plus 1075. -/
def scale (d : Double) : Nat := max d.exponent 1

end Double
end Cdcl
