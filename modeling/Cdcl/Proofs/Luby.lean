import Mathlib.Algebra.Ring.Nat
import Mathlib.Logic.Function.Iterate
import Cdcl.Proofs.Progress.Restart

/-!
# The Luby sequence

`Luby.term` is the Luby sequence by its recursion: term `2 ^ k - 1` is the power of two `2 ^ (k - 1)`,
and the terms from there on up to the next such place repeat the sequence from its start. A
`Luby` walks the same sequence with two counters (`power_after`), because the walk repeats itself too:
once `2 ^ k` is the current power, the counters go through their first values again, with `2 ^ k`
added to the round (`after_add`). Adding that much does not change where a run of powers ends, as
every power met on the way divides it (`advance_later`).

The counters are numbers here. They stay below `2 ^ 63` as long as fewer terms than that are taken, and
then a run ends where the power is the lowest set bit of the round, read in words of 64 bits
(`FitsWords`, `fitsWords_after`).
-/

namespace Cdcl
set_option autoImplicit false

namespace Luby

/-- The terms of the Luby sequence, numbered from 1. -/
def term (i : Nat) : Nat :=
  let k := (i + 1).log2
  if i + 1 = 2 ^ k then 2 ^ (k - 1) else term (i + 1 - 2 ^ k)
termination_by i
decreasing_by
  have hle : 2 ^ (i + 1).log2 ≤ i + 1 := Nat.log2_self_le (Nat.succ_ne_zero i)
  have hpos : 0 < (i + 1).log2 := by
    refine Nat.pos_of_ne_zero fun hzero => ?_
    have hlt : i + 1 < 2 ^ ((i + 1).log2 + 1) := Nat.lt_log2_self
    have hpower : i + 1 ≠ 2 ^ (i + 1).log2 := by assumption
    rw [hzero] at hlt hpower
    omega
  have htwo : 2 ≤ 2 ^ (i + 1).log2 := Nat.le_self_pow (Nat.ne_of_gt hpos) 2
  omega

theorem term_of_eq {i k : Nat} (h : i + 1 = 2 ^ (k + 1)) : term i = 2 ^ k := by
  rw [term, h, Nat.log2_two_pow, if_pos rfl, Nat.add_sub_cancel]

theorem term_of_between {i k : Nat} (hlow : 2 ^ k < i + 1) (hhigh : i + 1 < 2 ^ (k + 1)) :
    term i = term (i + 1 - 2 ^ k) := by
  have hlog : (i + 1).log2 = k :=
    (Nat.log2_eq_iff (Nat.succ_ne_zero i)).2 ⟨Nat.le_of_lt hlow, hhigh⟩
  rw [term]
  simp only [hlog]
  rw [if_neg (Nat.ne_of_gt hlow)]

/-! ## The walk repeats itself -/

variable {base n k d : Nat} {s : Luby}

/-- The counters when the first `n` terms are taken. -/
def after (base n : Nat) : Luby := advance^[n] ⟨base, 1, 1⟩

/-- The counters `d` rounds later. -/
def later (d : Nat) (s : Luby) : Luby := { s with round := s.round + d }

@[simp] theorem power_later : (s.later d).power = s.power := rfl

theorem after_succ : after base (n + 1) = (after base n).advance :=
  Function.iterate_succ_apply' advance n _

theorem advance_later (h : 2 * s.power ∣ d) : (s.later d).advance = s.advance.later d := by
  have hends : (s.later d).runEnds = s.runEnds := by
    obtain ⟨c, rfl⟩ := h
    unfold runEnds later
    rw [Nat.add_mul_mod_self_left]
  unfold advance
  rw [hends]
  split
  · simp only [later, Nat.add_right_comm]
  · rfl

/-- If the power becomes `2 ^ k` in round `2 ^ k` for the first time, then the walk goes on from there
as it went from the start. -/
theorem after_add_of_peak (hpeak : after base (2 ^ (k + 1) - 2) = ⟨base, 2 ^ k, 2 ^ k⟩)
    (hbefore : ∀ m, m + 2 < 2 ^ (k + 1) → 2 * (after base m).power ∣ 2 ^ k)
    (hn : n + 2 ≤ 2 ^ (k + 1)) :
    after base (n + (2 ^ (k + 1) - 1)) = (after base n).later (2 ^ k) := by
  induction n with
  | zero =>
    -- the run of powers ends at the peak, so the next one starts in the round after it
    have hends : runEnds ⟨base, 2 ^ k, 2 ^ k⟩ = true := by
      have hlt : 2 ^ k < 2 * 2 ^ k := by omega
      simp [runEnds, Nat.mod_eq_of_lt hlt]
    rw [show 0 + (2 ^ (k + 1) - 1) = 2 ^ (k + 1) - 2 + 1 by omega, after_succ, hpeak, advance,
      if_pos hends, Nat.add_comm]
    rfl
  | succ n ih =>
    rw [Nat.add_right_comm, after_succ, ih (by omega), advance_later (hbefore n (by omega)),
      after_succ]

/-- The power `2 ^ k` is met in round `2 ^ k` for the first time; up to then the powers are so small
that twice their value divides `2 ^ k`. -/
theorem after_peak (base k : Nat) : after base (2 ^ (k + 1) - 2) = ⟨base, 2 ^ k, 2 ^ k⟩ ∧
    ∀ n, n + 2 < 2 ^ (k + 1) → 2 * (after base n).power ∣ 2 ^ k := by
  induction k with
  | zero => exact ⟨rfl, fun n hn => absurd hn (by omega)⟩
  | succ k ih =>
    obtain ⟨hpeak, hbefore⟩ := ih
    have hpow : 2 ^ (k + 1) = 2 * 2 ^ k := Nat.pow_succ'
    have hpow' : 2 ^ (k + 1 + 1) = 2 * 2 ^ (k + 1) := Nat.pow_succ'
    have hone : 1 ≤ 2 ^ k := Nat.one_le_two_pow
    constructor
    · -- the copy of the peak has twice the round, so its run goes on for one more power
      have hcopy := after_add_of_peak hpeak hbefore (n := 2 ^ (k + 1) - 2) (by omega)
      have hends : runEnds ⟨base, 2 ^ k + 2 ^ k, 2 ^ k⟩ = false := by
        have hne : (2 ^ k + 2 ^ k) % (2 * 2 ^ k) ≠ 2 ^ k := by
          rw [← Nat.two_mul, Nat.mod_self]
          omega
        simpa [runEnds] using hne
      rw [show 2 ^ (k + 1 + 1) - 2 = 2 ^ (k + 1) - 2 + (2 ^ (k + 1) - 1) + 1 by omega, after_succ,
        hcopy, hpeak, later, advance, hends, hpow, ← Nat.two_mul]
      rfl
    · have hfirst : ∀ m, m + 2 ≤ 2 ^ (k + 1) → 2 * (after base m).power ∣ 2 ^ (k + 1) := by
        intro m hm
        rcases Nat.lt_or_eq_of_le hm with hlt | heq
        · exact Nat.dvd_trans (hbefore m hlt) ⟨2, rfl⟩
        · have hpower : 2 * (after base m).power = 2 ^ (k + 1) := by
            rw [show m = 2 ^ (k + 1) - 2 by omega, hpeak, hpow]
          exact hpower ▸ Nat.dvd_refl _
      intro n hn
      rcases Nat.lt_or_ge (n + 1) (2 ^ (k + 1)) with hlow | hhigh
      · exact hfirst n hlow
      · have hcopy := after_add_of_peak hpeak hbefore (n := n - (2 ^ (k + 1) - 1)) (by omega)
        rw [Nat.sub_add_cancel (by omega)] at hcopy
        rw [hcopy]
        exact hfirst _ (by omega)

/-- After the first `2 ^ (k + 1) - 1` terms the walk goes through its first counters again, `2 ^ k`
rounds later. -/
theorem after_add (hn : n + 2 ≤ 2 ^ (k + 1)) :
    after base (n + (2 ^ (k + 1) - 1)) = (after base n).later (2 ^ k) :=
  after_add_of_peak (after_peak base k).1 (after_peak base k).2 hn

/-- The power is the next term of the sequence. -/
theorem power_after (base n : Nat) : (after base n).power = term (n + 1) := by
  induction n using Nat.strongRecOn with
  | ind n ih =>
    obtain ⟨k, hlow, hhigh⟩ : ∃ k, 2 ^ (k + 1) ≤ n + 2 ∧ n + 2 < 2 ^ (k + 2) := by
      obtain ⟨k, hk⟩ : ∃ k, (n + 2).log2 = k + 1 :=
        Nat.exists_eq_add_one.2 ((Nat.le_log2 (by omega)).2 (by omega))
      exact ⟨k, (Nat.log2_eq_iff (by omega)).1 hk⟩
    have hpow : 2 ^ (k + 2) = 2 * 2 ^ (k + 1) := Nat.pow_succ'
    rcases Nat.eq_or_lt_of_le hlow with hpeak | hbetween
    · rw [term_of_eq hpeak.symm, show n = 2 ^ (k + 1) - 2 by omega, (after_peak base k).1]
    · have htwo : 2 ≤ 2 ^ (k + 1) := Nat.le_self_pow (Nat.succ_ne_zero k) 2
      have hcopy : after base (n + 1 - 2 ^ (k + 1) + (2 ^ (k + 1) - 1)) =
          (after base (n + 1 - 2 ^ (k + 1))).later (2 ^ k) := after_add (by omega)
      rw [show n + 1 - 2 ^ (k + 1) + (2 ^ (k + 1) - 1) = n by omega] at hcopy
      calc (after base n).power = (after base (n + 1 - 2 ^ (k + 1))).power := by
            rw [hcopy, power_later]
        _ = term (n + 1 - 2 ^ (k + 1) + 1) := ih _ (by omega)
        _ = term (n + 1) := by
            rw [term_of_between hbetween hhigh]
            congr 1
            omega

/-! ## Counters in words -/

theorem base_after (base n : Nat) : (after base n).base = base := by
  induction n with
  | zero => rfl
  | succ n ih => rw [after_succ, Restart.base_advance, ih]

theorem power_dvd_round (base n : Nat) : (after base n).power ∣ (after base n).round := by
  induction n with
  | zero => exact Nat.dvd_refl 1
  | succ n ih =>
    rw [after_succ]
    exact Restart.power_dvd_advance ih

theorem round_pos (base n : Nat) : 0 < (after base n).round := by
  induction n with
  | zero => exact Nat.one_pos
  | succ n ih =>
    rw [after_succ]
    exact Nat.lt_of_lt_of_le ih (Restart.round_advance_le _).1

/-- The second round takes two terms, so the rounds fall behind the terms. -/
theorem round_le (base n : Nat) : (after base n).round ≤ max 2 n := by
  induction n with
  | zero => exact Nat.le_succ 1
  | succ n ih =>
    match n with
    | 0 => exact Nat.le_refl 2
    | 1 =>
      have hsecond : after base 2 = ⟨base, 2, 2⟩ := by simp [after, advance, runEnds]
      rw [hsecond]
      exact Nat.le_refl 2
    | n + 2 =>
      have hstep := (Restart.round_advance_le (after base (n + 2))).2
      rw [after_succ]
      omega

theorem power_eq_two_pow (base n : Nat) : ∃ k, (after base n).power = 2 ^ k := by
  induction n with
  | zero => exact ⟨0, rfl⟩
  | succ n ih =>
    obtain ⟨k, hk⟩ := ih
    rw [after_succ, advance]
    split
    · exact ⟨0, rfl⟩
    · exact ⟨k + 1, by rw [hk, Nat.pow_succ']⟩

/-- The lowest set bit of a number, in words of 64 bits. -/
def lowestBit (n : Nat) : BitVec 64 := .ofNat 64 n &&& -.ofNat 64 n

/-- Negation flips the bits above the lowest one that is set, so that bit alone is common to a word
and its negation. -/
theorem getLsbD_lowestBit {x i : Nat} (hi : i < 64) : (lowestBit x).getLsbD i =
    (x.testBit i && !decide (∃ j < i, x.testBit j = true)) := by
  have hlow : (∃ j < i, (BitVec.ofNat 64 x).getLsbD j = true) ↔ ∃ j < i, x.testBit j = true := by
    refine exists_congr fun j => and_congr_right fun hj => ?_
    rw [BitVec.getLsbD_ofNat, decide_eq_true (Nat.lt_trans hj hi), Bool.true_and]
  rw [lowestBit, BitVec.getLsbD_and, BitVec.getLsbD_neg, BitVec.getLsbD_ofNat]
  simp only [hlow, hi, decide_true, Bool.true_and]
  cases x.testBit i <;> simp

theorem lowestBit_eq_iff {x : Nat} (hk : k < 64) :
    lowestBit x = .ofNat 64 (2 ^ k) ↔ x.testBit k = true ∧ ∀ j < k, x.testBit j = false := by
  constructor
  · intro h
    have hbit := getLsbD_lowestBit (x := x) hk
    rw [h, BitVec.getLsbD_ofNat, Nat.testBit_two_pow_self, decide_eq_true hk] at hbit
    simpa using hbit.symm
  · rintro ⟨hset, hclear⟩
    refine BitVec.eq_of_getLsbD_eq fun i hi => ?_
    rw [getLsbD_lowestBit hi, BitVec.getLsbD_ofNat, Nat.testBit_two_pow, decide_eq_true hi,
      Bool.true_and]
    rcases Nat.lt_trichotomy i k with hlt | rfl | hgt
    · rw [hclear i hlt, decide_eq_false (Nat.ne_of_gt hlt), Bool.false_and]
    · simpa [hset] using hclear
    · have hbelow : ∃ j < i, x.testBit j = true := ⟨k, hgt, hset⟩
      simp [hbelow, Nat.ne_of_lt hgt]

theorem mod_two_pow_eq_iff {x : Nat} :
    x % 2 ^ (k + 1) = 2 ^ k ↔ x.testBit k = true ∧ ∀ j < k, x.testBit j = false := by
  constructor
  · intro h
    have hbit : ∀ j, (decide (j < k + 1) && x.testBit j) = decide (k = j) := by
      intro j
      rw [← Nat.testBit_mod_two_pow, h, Nat.testBit_two_pow]
    refine ⟨by simpa using hbit k, fun j hj => ?_⟩
    simpa [Nat.lt_succ_of_lt hj, Nat.ne_of_gt hj] using hbit j
  · rintro ⟨hset, hclear⟩
    refine Nat.eq_of_testBit_eq fun i => ?_
    rw [Nat.testBit_mod_two_pow, Nat.testBit_two_pow]
    rcases Nat.lt_trichotomy i k with hlt | rfl | hgt
    · simp [hclear i hlt, Nat.ne_of_gt hlt]
    · simp [hset]
    · simp [Nat.not_lt_of_le hgt, Nat.ne_of_lt hgt]

/-- The counters fit signed words of 64 bits, and in these a run ends where the power is the lowest
set bit of the round. -/
structure FitsWords (s : Luby) : Prop where
  round : s.round < 2 ^ 63
  power : s.power < 2 ^ 63
  runEnds : s.runEnds = (lowestBit s.round == .ofNat 64 s.power)

theorem fitsWords_after (base : Nat) (hn : n < 2 ^ 63) : (after base n).FitsWords := by
  have hround : (after base n).round < 2 ^ 63 :=
    Nat.lt_of_le_of_lt (round_le base n) (Nat.max_lt.2 ⟨by decide, hn⟩)
  have hpower : (after base n).power < 2 ^ 63 :=
    Nat.lt_of_le_of_lt (Nat.le_of_dvd (round_pos base n) (power_dvd_round base n)) hround
  refine ⟨hround, hpower, ?_⟩
  obtain ⟨k, hk⟩ := power_eq_two_pow base n
  have hk63 : k < 63 := (Nat.pow_lt_pow_iff_right (by decide)).1 (hk ▸ hpower)
  rw [runEnds, hk, Bool.eq_iff_iff, beq_iff_eq, beq_iff_eq, ← Nat.pow_succ', mod_two_pow_eq_iff,
    lowestBit_eq_iff (Nat.lt_succ_of_lt hk63)]

end Luby

/-! ## Intervals -/

namespace Restart

/-- Takes so many intervals of a sequence. -/
def take : Nat → Restart → Except Fault (List (Option Nat) × Restart)
  | 0, r => .ok ([], r)
  | n + 1, r => do
    let (interval, r) ← r.next
    let (rest, r) ← r.take n
    .ok (interval :: rest, r)

theorem take_luby {base m n : Nat}
    (h : ∀ j, m < j → j ≤ m + n → Luby.term j * base < Word.limit) :
    (Restart.luby (Luby.after base m)).take n =
      .ok ((List.range' (m + 1) n).map fun j => some (Luby.term j * base),
        .luby (Luby.after base (m + n))) := by
  induction n generalizing m with
  | zero => rfl
  | succ n ih =>
    have hnext : (Restart.luby (Luby.after base m)).next =
        .ok (some (Luby.term (m + 1) * base), .luby (Luby.after base (m + 1))) := by
      rw [next, Luby.power_after, Luby.base_after, Word.mul,
        if_pos (h (m + 1) (Nat.lt_succ_self m) (by omega)), Luby.after_succ]
      rfl
    have hrest := ih (m := m + 1) fun j hlow hhigh => h j (by omega) (by omega)
    rw [take, hnext, List.range'_succ, List.map_cons, show m + (n + 1) = m + 1 + n by omega]
    exact bind_eq_ok_iff.2 ⟨_, rfl, bind_eq_ok_iff.2 ⟨_, hrest, rfl⟩⟩

/-- The intervals of a Luby sequence are its base times the terms of the sequence, from the first one
on, as long as these fit a word; and the two counters that walk it stay in words for fewer than
`2 ^ 63` terms. -/
theorem intervals_luby {base i : Nat} (hi : i < 2 ^ 63)
    (hfit : ∀ j, 1 ≤ j → j ≤ i → Luby.term j * base < Word.limit) :
    ∃ r s, ofPolicy (.luby base) = .ok r ∧
      r.take i = .ok ((List.range' 1 i).map fun j => some (Luby.term j * base), .luby s) ∧
      s.FitsWords := by
  have htake := take_luby (m := 0) (n := i) fun j hlow hhigh => hfit j hlow (by omega)
  rw [Nat.zero_add, Nat.zero_add] at htake
  exact ⟨_, _, rfl, htake, Luby.fitsWords_after base hi⟩

/-- With the largest base for which eight times it fits a word. -/
theorem intervals_luby_largest_base : 15 < 2 ^ 63 ∧
    (∀ j, 1 ≤ j → j ≤ 15 → Luby.term j * 2305843009213693951 < Word.limit) ∧
    ∃ r s, ofPolicy (.luby 2305843009213693951) = .ok r ∧
      r.take 15 = .ok ([1, 1, 2, 1, 1, 2, 4, 1, 1, 2, 1, 1, 2, 4, 8].map fun k =>
        some (k * 2305843009213693951), .luby s) ∧
      s.FitsWords := by
  have hfit : ∀ j, 1 ≤ j → j ≤ 15 → Luby.term j * 2305843009213693951 < Word.limit := by
    have hall : ∀ j ∈ List.range' 1 15, Luby.term j * 2305843009213693951 < Word.limit := by
      decide +kernel
    intro j hlow hhigh
    exact hall j (List.mem_range'_1.2 ⟨hlow, by omega⟩)
  have hterms : (List.range' 1 15).map Luby.term =
      [1, 1, 2, 1, 1, 2, 4, 1, 1, 2, 1, 1, 2, 4, 8] := by cbv
  obtain ⟨r, s, hr, htake, hwords⟩ := intervals_luby (i := 15) (by decide) hfit
  refine ⟨by decide, hfit, r, s, hr, ?_, hwords⟩
  rw [← hterms, List.map_map]
  exact htake

end Restart
end Cdcl
