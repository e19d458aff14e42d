import Mathlib.Logic.Relation
import Cdcl.Restart

/-!
# Sequences of restart intervals

`Restart.Precedes` says that a sequence goes on as another one once some of its intervals are taken, and
`Restart.Fits n` that the next `n` intervals can be taken. Geometric sequences and the one without
restarts never run out. The powers of the Luby sequence grow no faster than its rounds, so `n` of its
intervals can be taken if `n` times the base fits a word (`fits_ofPolicy`).
-/

namespace Cdcl.Restart
set_option autoImplicit false

/-! ## Later intervals -/

/-- The second sequence is what the first one becomes when some of its intervals are taken. -/
def Precedes : Restart → Restart → Prop :=
  Relation.ReflTransGen fun r r' => ∃ interval, r.next = .ok (interval, r')

section
variable {r r' r'' : Restart} {interval : Option Nat}

theorem Precedes.of_eq (h : r' = r) : r.Precedes r' := h ▸ Relation.ReflTransGen.refl

theorem Precedes.trans (h : r.Precedes r') (h' : r'.Precedes r'') : r.Precedes r'' :=
  Relation.ReflTransGen.trans h h'

theorem Precedes.of_next (h : r.next = .ok (interval, r')) : r.Precedes r' :=
  Relation.ReflTransGen.single ⟨interval, h⟩

/-- What taking an interval keeps holds later on. -/
theorem Precedes.keeps {P : Restart → Prop} (h : r.Precedes r')
    (hnext : ∀ r interval r', P r → r.next = .ok (interval, r') → P r') (hr : P r) : P r' := by
  induction h with
  | refl => exact hr
  | tail _ hlast ih =>
    obtain ⟨interval, hlast⟩ := hlast
    exact hnext _ interval _ ih hlast

theorem eq_never_of_precedes (h : Restart.never.Precedes r) : r = .never := by
  refine h.keeps (P := (· = .never)) ?_ rfl
  rintro _ interval r' rfl hnext
  exact (Prod.mk.inj (Except.ok.inj hnext)).2.symm

end

/-! ## Intervals that fit a word -/

/-- The next intervals of a sequence can be taken, so many of them. -/
def Fits : Nat → Restart → Prop
  | 0, _ => True
  | n + 1, r => ∃ interval r', r.next = .ok (interval, r') ∧ Fits n r'

theorem Fits.mono {n m : Nat} {r : Restart} (h : r.Fits n) (hle : m ≤ n) : r.Fits m := by
  induction m generalizing n r with
  | zero => trivial
  | succ m ih =>
    obtain ⟨n, rfl⟩ : ∃ n', n = n' + 1 := ⟨n - 1, by omega⟩
    obtain ⟨interval, r', hnext, h'⟩ := h
    exact ⟨interval, r', hnext, ih h' (Nat.le_of_succ_le_succ hle)⟩

/-- The only fault of a sequence is an interval that does not fit a word. -/
theorem next_succeeds_or (r : Restart) : (∃ interval r', r.next = .ok (interval, r')) ∨
    r.next = .error .multiplicationOverflow ∧ ∀ n, ¬ r.Fits (n + 1) := by
  suffices h : (∃ interval r', r.next = .ok (interval, r')) ∨
      r.next = .error .multiplicationOverflow by
    refine h.imp_right fun herror => ⟨herror, ?_⟩
    rintro n ⟨interval, r', hnext, -⟩
    exact absurd (hnext.symm.trans herror) (by simp)
  cases r with
  | luby s =>
    unfold next Word.mul
    dsimp only
    split
    · exact Or.inl ⟨_, _, rfl⟩
    · exact Or.inr rfl
  | geometric | never => exact Or.inl ⟨_, _, rfl⟩

theorem fits_never (n : Nat) : Fits n .never := by
  induction n with
  | zero => trivial
  | succ n ih => exact ⟨_, _, rfl, ih⟩

theorem fits_geometric (n : Nat) (s : Geometric) : Fits n (.geometric s) := by
  induction n generalizing s with
  | zero => trivial
  | succ n ih => exact ⟨_, _, rfl, ih _⟩

/-- A power of two that divides the round still does so after an advance. -/
theorem power_dvd_advance {s : Luby} (h : s.power ∣ s.round) :
    s.advance.power ∣ s.advance.round := by
  unfold Luby.advance
  split
  · exact Nat.one_dvd _
  · next hends =>
    obtain ⟨k, hk⟩ := h
    have hne : s.round % (2 * s.power) ≠ s.power := by simpa [Luby.runEnds] using hends
    rw [hk, Nat.mul_comm 2, Nat.mul_mod_mul_left] at hne
    change 2 * s.power ∣ s.round
    rcases Nat.mod_two_eq_zero_or_one k with heven | hodd
    · rw [hk, Nat.mul_comm 2]
      exact Nat.mul_dvd_mul_left _ (Nat.dvd_of_mod_eq_zero heven)
    · exact absurd (by rw [hodd, Nat.mul_one]) hne

theorem round_advance_le (s : Luby) : s.round ≤ s.advance.round ∧ s.advance.round ≤ s.round + 1 := by
  unfold Luby.advance
  split
  · exact ⟨Nat.le_succ _, Nat.le_refl _⟩
  · exact ⟨Nat.le_refl _, Nat.le_succ _⟩

theorem base_advance (s : Luby) : s.advance.base = s.base := by
  unfold Luby.advance
  split <;> rfl

theorem fits_luby {n : Nat} {s : Luby} (hdvd : s.power ∣ s.round) (hpos : 0 < s.round)
    (h : ∀ k < n, (s.round + k) * s.base < Word.limit) : Fits n (.luby s) := by
  induction n generalizing s with
  | zero => trivial
  | succ n ih =>
    have hmul : s.power * s.base < Word.limit :=
      Nat.lt_of_le_of_lt (Nat.mul_le_mul_right _ (Nat.le_of_dvd hpos hdvd)) (h 0 (Nat.succ_pos n))
    obtain ⟨hge, hle⟩ := round_advance_le s
    refine ⟨_, _, bind_eq_ok_iff.2 ⟨_, if_pos hmul, rfl⟩,
      ih (power_dvd_advance hdvd) (Nat.lt_of_lt_of_le hpos hge) ?_⟩
    intro k hk
    rw [base_advance]
    exact Nat.lt_of_le_of_lt (Nat.mul_le_mul_right _ (by omega)) (h (k + 1) (Nat.succ_lt_succ hk))

/-- So many intervals of a policy can be taken, as long as those of a Luby sequence fit a word. -/
theorem fits_ofPolicy {n : Nat} {p : Policy} {r : Restart} (h : ofPolicy p = .ok r)
    (hbase : ∀ base, p = .luby base → n * base < Word.limit) : r.Fits n := by
  cases p with
  | luby base =>
    obtain rfl := Except.ok.inj h
    refine fits_luby (Nat.dvd_refl 1) Nat.one_pos fun k hk => ?_
    have hle : 1 + k ≤ n := by omega
    exact Nat.lt_of_le_of_lt (Nat.mul_le_mul_right _ hle) (hbase base rfl)
  | geometric first factor =>
    obtain ⟨-, -, h⟩ := bind_eq_ok_iff.1 h
    obtain rfl := Except.ok.inj h
    exact fits_geometric n _
  | never =>
    obtain rfl := Except.ok.inj h
    exact fits_never n

end Cdcl.Restart
