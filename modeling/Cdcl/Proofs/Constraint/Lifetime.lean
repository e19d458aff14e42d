import Cdcl.Proofs.Constraint.Reaction

/-!
# Making and dropping constraints

A new constraint over distinct variables is valid and has the literals it was given. A redundant one
has as many literals fixed at level 0 as have to hold, and one that is not locked is no reason of a
literal that it watches.
-/

namespace Cdcl.Constraint
set_option autoImplicit false

variable {t : Trail} {c : Constraint} {l : Literal} {ls : List Literal}

/-! ## Making -/

theorem clause_eq_ok (h : clause ls = .ok c) (hls : (ls.map Literal.var).Nodup) :
    c.Valid ∧ c.degree = 1 ∧ c.literals = ls := by
  match ls, h with
  | [], h => exact absurd h (by simp [clause])
  | [_], h => exact absurd h (by simp [clause])
  | [a, b], h =>
    obtain ⟨_, -, h⟩ := bind_eq_ok_iff.1 h
    obtain rfl : binary a b = c := Except.ok.inj h
    exact ⟨⟨hls, Nat.le_refl 1, rfl⟩, rfl, rfl⟩
  | a :: b :: d :: rest, h =>
    obtain rfl : watched a b (d :: rest) = c := Except.ok.inj h
    exact ⟨⟨hls, Nat.le_refl 1, rfl⟩, rfl, rfl⟩

theorem atLeastOf_eq_ok {degree : Nat} (h : atLeastOf ls degree = .ok c)
    (hls : (ls.map Literal.var).Nodup) : c.Valid ∧ c.degree = degree ∧ c.literals = ls := by
  obtain ⟨_, hreq, h⟩ := bind_eq_ok_iff.1 h
  obtain ⟨hpos, hlt⟩ : 1 ≤ degree ∧ degree < ls.length := by simpa using require_eq_ok_iff.1 hreq
  obtain rfl : _ = c := Except.ok.inj h
  have hlits : (atLeast degree (ls.take (degree + 1)) (ls.drop (degree + 1))).literals = ls :=
    List.take_append_drop _ _
  exact ⟨⟨hlits.symm ▸ hls, hpos, List.length_take_of_le hlt⟩, rfl, hlits⟩

/-! ## Dropping -/

/-- Whether a literal is true at level 0. -/
def rooted (t : Trail) (l : Literal) : Bool := t.holds l && t.levelOf l.var == 0

theorem fixed_eq_ok {b : Bool} (h : fixed t l = .ok b) : b = rooted t l := by
  obtain ⟨sat, hsat, h⟩ := bind_eq_ok_iff.1 h
  obtain ⟨-, rfl⟩ := Trail.isSatisfied_eq_ok hsat
  exact (Except.ok.inj h).symm

theorem fixedCount_eq_ok {n : Nat} (h : fixedCount t ls = .ok n) : n = ls.countP (rooted t) := by
  induction ls generalizing n with
  | nil => exact (Except.ok.inj h).symm
  | cons l ls ih =>
    obtain ⟨b, hb, h⟩ := bind_eq_ok_iff.1 h
    obtain ⟨others, hothers, h⟩ := bind_eq_ok_iff.1 h
    obtain rfl : others + b.toNat = n := Except.ok.inj h
    rw [ih hothers, fixed_eq_ok hb, List.countP_cons]
    cases rooted t l <;> simp

theorem someFixed_eq_ok (h : someFixed t ls = .ok true) : ∃ l ∈ ls, rooted t l = true := by
  induction ls with
  | nil => exact absurd h (by simp [someFixed])
  | cons l ls ih =>
    obtain ⟨b, hb, h⟩ := bind_eq_ok_iff.1 h
    split at h
    · next htrue => exact ⟨l, List.mem_cons_self, fixed_eq_ok hb ▸ htrue⟩
    · obtain ⟨k, hk, hrooted⟩ := ih h
      exact ⟨k, List.mem_cons_of_mem l hk, hrooted⟩

/-- A redundant constraint has enough literals that are true at level 0. -/
theorem isRedundant_eq_ok (h : c.isRedundant t = .ok true) :
    c.degree ≤ c.literals.countP (rooted t) := by
  have hclause : someFixed t c.literals = .ok true → 1 ≤ c.literals.countP (rooted t) :=
    fun h => List.countP_pos_iff.2 (someFixed_eq_ok h)
  cases c with
  | binary a b => exact hclause h
  | watched hd tl rest => exact hclause h
  | atLeast d watch rest =>
    obtain ⟨n, hn, h⟩ := bind_eq_ok_iff.1 h
    have hle : d ≤ n := by simpa using Except.ok.inj h
    exact fixedCount_eq_ok hn ▸ hle

theorem someForced_eq_ok {ref : ClauseRef} (h : someForced ref t ls = .ok false) :
    ∀ l ∈ ls, t.holds l = true → t.reasonOf l.var ≠ some ref := by
  induction ls with
  | nil => simp
  | cons l ls ih =>
    obtain ⟨sat, hsat, h⟩ := bind_eq_ok_iff.1 h
    obtain ⟨-, rfl⟩ := Trail.isSatisfied_eq_ok hsat
    split at h
    · exact absurd h (by simp)
    · next hno =>
      refine List.forall_mem_cons.2 ⟨fun hl hr => hno ?_, ih h⟩
      simp [hl, hr]

/-- A constraint that is not locked is no reason of a literal that it watches. -/
theorem isLocked_eq_ok {ref : ClauseRef} (h : c.isLocked ref t = .ok false) :
    ∀ l ∈ c.watching, t.holds l = true → t.reasonOf l.var ≠ some ref := someForced_eq_ok h

end Cdcl.Constraint
