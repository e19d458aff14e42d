import Cdcl.Word

/-!
# Random numbers

A `RandomSource` gives numbers below a bound and truth values. `Generator` is one: the xoshiro256++
generator, with four words of state and one word a draw. `ofSeed` fills the state from a seed with a
congruential generator whose output words are shifted and rotated. `below` draws a number below a
bound without bias, `coin` a truth value.
-/

namespace Cdcl
set_option autoImplicit false

/-- A type of states from which random values are drawn. -/
class RandomSource (σ : Type) where
  /-- Draws a number below a bound. -/
  below : Nat → σ → Nat × σ
  /-- Draws a truth value. -/
  coin : σ → Bool × σ

/-- The state of the generator. -/
structure Generator where
  s0 : UInt64
  s1 : UInt64
  s2 : UInt64
  s3 : UInt64

namespace Generator

/-- Rotates a word to the left by `0 < k < 64` places. -/
def rotateLeft (x k : UInt64) : UInt64 := (x <<< k) ||| (x >>> (64 - k))

/-- Rotates the 32 low bits of a word to the right. -/
def rotateRight32 (x k : UInt64) : UInt64 :=
  ((x >>> k) ||| (x <<< ((32 - k) % 32))) &&& 0xffffffff

/-- One step of the seeding sequence. -/
def seedStep (s : UInt64) : UInt64 := s * 6364136223846793005 + 11634580027462260723

/-- The 32 bits that the seeding sequence shows at a state. -/
def seedOutput (s : UInt64) : UInt64 :=
  rotateRight32 ((((s >>> 18) ^^^ s) >>> 27) &&& 0xffffffff) (s >>> 59)

/-- The next word of state, the low half first, and the state of the seeding sequence after it. -/
def seedWord (s : UInt64) : UInt64 × UInt64 :=
  let a := seedStep s
  let b := seedStep a
  (seedOutput a ||| (seedOutput b <<< 32), b)

/-- The generator of a seed. -/
def ofSeed (seed : Nat) : Generator :=
  let (s0, a) := seedWord seed.toUInt64
  let (s1, b) := seedWord a
  let (s2, c) := seedWord b
  let (s3, _) := seedWord c
  ⟨s0, s1, s2, s3⟩

def next (g : Generator) : UInt64 × Generator :=
  let word := rotateLeft (g.s0 + g.s3) 23 + g.s0
  let s2 := g.s2 ^^^ g.s0
  let s3 := g.s3 ^^^ g.s1
  (word, ⟨g.s0 ^^^ s3, g.s1 ^^^ s2, s2 ^^^ (g.s1 <<< 17), rotateLeft s3 45⟩)

/-- The largest low half of a product that a draw below `n` accepts: it leaves every number below
`n` the same number of words. -/
def zone (n : Nat) : Nat := n * Nat.pow 2 (63 - n.log2) - 1

/-- Draws a number below `n`: the high half of the product of `n` and a word. Words outside of the
zone are drawn again, at most `tries` times. -/
def draw (n : Nat) : Nat → Generator → Nat × Generator
  | 0, g => let (word, g) := g.next; (word.toNat * n / Word.limit, g)
  | tries + 1, g =>
    let (word, g) := g.next
    let product := word.toNat * n
    if product % Word.limit ≤ zone n then (product / Word.limit, g) else draw n tries g

/-- Draws a number below `n`. A draw is refused with a chance of less than one half, so the limit on
repetitions is never met. -/
def below (n : Nat) (g : Generator) : Nat × Generator := draw n 4096 g

/-- Tosses a fair coin. -/
def coin (g : Generator) : Bool × Generator :=
  let (word, g) := g.next
  (decide (word < 0x8000000000000000), g)

end Generator

instance : RandomSource Generator := ⟨Generator.below, Generator.coin⟩

end Cdcl
