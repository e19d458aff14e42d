import Cdcl.Double
import Cdcl.Word

/-!
# Numbers on the command line

`count?` reads a whole number of 64 bits, `decimal?` a double, and `nanoseconds` turns a number of
seconds into a time limit.
-/

namespace Cdcl.CommandLine
set_option autoImplicit false

/-- The number that a run of decimal digits writes. -/
def digitValue (digits : List Char) : Nat :=
  digits.foldl (fun n c => 10 * n + (c.toNat - '0'.toNat)) 0

/-- Drops an optional sign; tells whether it was a minus sign. -/
def splitSign : List Char → Bool × List Char
  | '-' :: cs => (true, cs)
  | '+' :: cs => (false, cs)
  | cs => (false, cs)

/-- Reads a whole number that fits a word: decimal digits, maybe after a plus sign. -/
def count? (text : String) : Option Nat :=
  let digits := match text.toList with
    | '+' :: cs => cs
    | cs => cs
  if digits.isEmpty || !digits.all Char.isDigit then none
  else
    let n := digitValue digits
    if n < Word.limit then some n else none

/-- The double nearest to `m` times the power of ten of exponent `e`. Numbers far outside of the
range of doubles are settled by the place of their first digit. -/
def scientific (m : Nat) (e : Int) : Float :=
  let size := ((Nat.toDigits 10 m).length : Int) + e
  if m = 0 then 0.0
  else if 400 < size then 1.0 / 0.0
  else if size < -400 then 0.0
  else if e < 0 then Float.ofScientific m true e.natAbs
  else Float.ofScientific m false e.natAbs

/-- Reads an exponent, if there is one, up to the end of the text. -/
def exponent? : List Char → Option Int
  | [] => some 0
  | c :: cs =>
    if c = 'e' || c = 'E' then
      let (negative, digits) := splitSign cs
      if digits.isEmpty || !digits.all Char.isDigit then none
      else some (if negative then -(digitValue digits : Int) else (digitValue digits : Int))
    else none

/-- Reads a number without a sign: digits with an optional point, and an optional exponent. -/
def magnitude? (cs : List Char) : Option Float := do
  let whole := cs.takeWhile Char.isDigit
  let rest := cs.dropWhile Char.isDigit
  let (fraction, rest) := match rest with
    | '.' :: rest => (rest.takeWhile Char.isDigit, rest.dropWhile Char.isDigit)
    | rest => ([], rest)
  if whole.isEmpty && fraction.isEmpty then none
  else do
    let e ← exponent? rest
    some (scientific (digitValue (whole ++ fraction)) (e - fraction.length))

/-- Reads a double: a number, or one of the words `inf`, `infinity` and `nan` in any case, maybe
after a sign. -/
def decimal? (text : String) : Option Float := do
  let (negative, cs) := splitSign text.toList
  let word := String.ofList (cs.map Char.toLower)
  let value ←
    if word = "inf" || word = "infinity" then some (1.0 / 0.0)
    else if word = "nan" then some (0.0 / 0.0)
    else magnitude? cs
  some (if negative then -value else value)

/-- Half of `d`, compared with a remainder, decides how a quotient is rounded; a tie goes to the
even neighbour. -/
def roundedQuotient (n d : Nat) : Nat :=
  let q := n / d
  let twice := 2 * (n % d)
  if twice < d then q else if d < twice then q + 1 else q + q % 2

/-- The nearest number of nanoseconds to a number of seconds, which must not be negative and has to
fit a word. -/
def nanoseconds (seconds : Float) : Except Fault Nat := do
  require (0.0 ≤ seconds && seconds < 18446744073709551616.0) .durationOutOfRange
  let d := Double.ofBits seconds.toBits
  let scaled := d.significand * 1000000000
  .ok (if 1075 ≤ d.scale then scaled * Nat.pow 2 (d.scale - 1075)
    else roundedQuotient scaled (Nat.pow 2 (1075 - d.scale)))

end Cdcl.CommandLine
