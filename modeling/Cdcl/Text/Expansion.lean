import Cdcl.Double

/-!
# Decimal expansions

Every finite double is a whole number divided by a power of two, so its decimal expansion ends.
`ofDouble` writes that expansion, with `NaN`, `inf` and `-inf` for the values that have none.
-/

namespace Cdcl.Text.Expansion
set_option autoImplicit false

/-- Drops the zeros at the end of a run of digits. -/
def stripZeros (ds : List Char) : List Char := (ds.reverse.dropWhile (· == '0')).reverse

/-- Writes `m` divided by the `k`-th power of two: over the `k`-th power of ten as denominator, the
numerator is `m` times the `k`-th power of five. -/
def ofDyadic (m k : Nat) : String :=
  let denominator := Nat.pow 2 k
  let digits := (Nat.toDigits 10 (m % denominator * Nat.pow 5 k)).leftpad k '0'
  let fraction := if k = 0 then [] else stripZeros digits
  let whole := toString (m / denominator)
  if fraction.isEmpty then whole else whole ++ "." ++ String.ofList fraction

/-- Writes a double. -/
def ofDouble (d : Double) : String :=
  let sign := if d.negative then "-" else ""
  if d.exponent = Double.topExponent then
    if d.mantissa = 0 then sign ++ "inf" else "NaN"
  else if d.scale < 1075 then sign ++ ofDyadic d.significand (1075 - d.scale)
  else sign ++ ofDyadic (d.significand * Nat.pow 2 (d.scale - 1075)) 0

end Cdcl.Text.Expansion
