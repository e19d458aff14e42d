import Cdcl.Word

/-!
# Restart intervals

How many conflicts a search may meet before it starts over. `Restart.Policy` is the choice of a
sequence, `Restart` a sequence that has been started, and `Restart.next` takes its next interval.
The Luby sequence 1, 1, 2, 1, 1, 2, 4, … is walked by two counters: `power` runs through the powers
of two up to the largest one that divides `round`, then `round` moves on.
-/

namespace Cdcl
set_option autoImplicit false

/-- The double nearest to a count that fits a word. -/
def countToFloat (n : Nat) : Float := n.toUInt64.toFloat

/-- Which sequence of intervals to use. -/
inductive Restart.Policy where
  /-- The Luby sequence times a base. -/
  | luby (base : Nat)
  /-- Intervals that grow by a constant factor. -/
  | geometric (first : Nat) (factor : Float)
  /-- A single interval without end. -/
  | never

/-- Where the Luby sequence stands. -/
structure Luby where
  base : Nat
  /-- Counts the runs of powers of two. -/
  round : Nat := 1
  power : Nat := 1

/-- Whether `power` is the largest power of two that divides `round`. -/
def Luby.runEnds (s : Luby) : Bool := s.round % (2 * s.power) == s.power

/-- Moves on to the next term. -/
def Luby.advance (s : Luby) : Luby :=
  if s.runEnds then { s with round := s.round + 1, power := 1 } else { s with power := 2 * s.power }

/-- Where a geometric sequence stands. -/
structure Geometric where
  /-- The next interval before rounding. -/
  current : Float
  factor : Float

/-- A sequence of restart intervals. -/
inductive Restart where
  | luby (s : Luby)
  | geometric (s : Geometric)
  | never

namespace Restart

/-- Starts the sequence of a policy. A geometric sequence must not shrink. -/
def ofPolicy : Policy → Except Fault Restart
  | .luby base => .ok (.luby ⟨base, 1, 1⟩)
  | .geometric first factor => do
    require (1.0 ≤ factor) .shrinkingIntervals
    .ok (.geometric ⟨countToFloat first, factor⟩)
  | .never => .ok .never

/-- The next interval, none if it has no end. An interval that does not fit a word is a fault in
the Luby sequence; geometric intervals are cut to whole numbers from 1 to the largest word. -/
def next : Restart → Except Fault (Option Nat × Restart)
  | .luby s => do
    let interval ← Word.mul s.power s.base
    .ok (some interval, .luby s.advance)
  | .geometric s =>
    .ok (some (max 1 s.current.toUInt64.toNat),
      .geometric { s with current := s.current * s.factor })
  | .never => .ok (none, .never)

end Restart
end Cdcl
