import Cdcl.Fault

/-!
# Counts that fit a machine word

Counts from outside may be as large as a word of 64 bits holds. `add` and `mul` are the sum and the
product of two counts, unless the result is too large; `reserve` refuses a table that cannot be
addressed.
-/

namespace Cdcl.Word
set_option autoImplicit false

/-- The first count that does not fit. -/
def limit : Nat := 0x10000000000000000

/-- Tables have fewer bytes than this. -/
def addressable : Nat := 0x8000000000000000

/-- The sum of two counts. -/
def add (a b : Nat) : Except Fault Nat :=
  if a + b < limit then .ok (a + b) else .error .additionOverflow

/-- The product of two counts. -/
def mul (a b : Nat) : Except Fault Nat :=
  if a * b < limit then .ok (a * b) else .error .multiplicationOverflow

theorem add_eq_ok {a b c : Nat} (h : add a b = .ok c) : a + b < limit ∧ c = a + b := by
  unfold add at h
  split at h
  · next hlt => exact ⟨hlt, (Except.ok.inj h).symm⟩
  · exact absurd h (by simp)

theorem mul_eq_ok {a b c : Nat} (h : mul a b = .ok c) : a * b < limit ∧ c = a * b := by
  unfold mul at h
  split at h
  · next hlt => exact ⟨hlt, (Except.ok.inj h).symm⟩
  · exact absurd h (by simp)

/-- Room for a number of cells of the given width in bytes. -/
def reserve (cells width : Nat) : Except Fault Unit :=
  require (decide (cells * width < addressable)) .capacityOverflow

end Cdcl.Word
