import Cdcl.Proofs.Intake.Meaning

/-!
# At-least constraints of growing degree

An intake lowers the degree by a number that depends on the literals only, and what it classifies are
the same literals for every degree (`exists_shared`). So asking for more is never easier
(`atLeast_monotone`), as long as the degrees are signed words. Larger degrees are read as negative
numbers: with any of them a constraint is easier than with the degree that is one more than the number
of its literals (`contradiction_lost`).
-/

namespace Cdcl.Intake
set_option autoImplicit false

variable {t : Trail} {ls kept rest rest' : List Literal} {l : Literal} {d e : Nat}
  {r r' : Except Contradiction AtLeastForm}

/-- Which literals are left and how far the degree is lowered does not depend on the degree. -/
theorem cancelPairs_shift {d d' e e' : Int} (h : cancelPairs d kept ls = .ok (d', rest))
    (h' : cancelPairs e kept ls = .ok (e', rest')) : rest' = rest ∧ e' - e = d' - d := by
  induction ls generalizing d e kept with
  | nil =>
    unfold cancelPairs at h h'
    obtain ⟨rfl, rfl⟩ := Prod.mk.inj (Except.ok.inj h)
    obtain ⟨rfl, rfl⟩ := Prod.mk.inj (Except.ok.inj h')
    exact ⟨rfl, by omega⟩
  | cons l ls ih =>
    cases kept with
    | nil =>
      rw [cancelPairs] at h h'
      exact ih h h'
    | cons k kept =>
      rw [cancelPairs] at h h'
      split at h
      · next hpair =>
        rw [if_pos hpair] at h'
        obtain ⟨d₁, hd₁, h⟩ := bind_eq_ok_iff.1 h
        obtain ⟨e₁, he₁, h'⟩ := bind_eq_ok_iff.1 h'
        obtain ⟨hrest, hshift⟩ := ih h h'
        rw [lower_eq_ok hd₁, lower_eq_ok he₁] at hshift
        exact ⟨hrest, by omega⟩
      · next hpair =>
        rw [if_neg hpair] at h'
        exact ih h h'

/-- Two intakes of the same literals classify the same literals, each with its degree lowered by the
same number. -/
theorem exists_shared (hd : d < Word.addressable) (he : e < Word.addressable)
    (h : atLeast ls d t = .ok r) (h' : atLeast ls e t = .ok r') :
    ∃ (lowered : Int) (kept : List Literal), Open t kept ∧ Literal.Ascending kept ∧
      classifyAtLeast (d - lowered) kept t = .ok r ∧
      classifyAtLeast (e - lowered) kept t = .ok r' := by
  obtain ⟨d', kept, hd', hopen, hasc, h⟩ := exists_classified h
  obtain ⟨e', kept', he', -, -, h'⟩ := exists_classified h'
  obtain ⟨rfl, hshift⟩ := cancelPairs_shift hd' he'
  rw [signedDegree_of_lt hd, signedDegree_of_lt he] at hshift
  have hlowered : e - (d - d') = e' := by omega
  exact ⟨d - d', kept', hopen, hasc, by rwa [Int.sub_sub_self], by rwa [hlowered]⟩

/-- Every degree that is a signed word has an outcome. If a degree cannot be reached then no larger
one can, and if nothing is left to be done for a degree then nothing is for a smaller one. -/
theorem atLeast_monotone (ht : t.Valid) (hnames : ∀ l ∈ ls, t.Names l)
    (hlen : ls.length < Word.addressable) (hle : d ≤ e) (he : e < Word.addressable) :
    ∃ r r', atLeast ls d t = .ok r ∧ atLeast ls e t = .ok r' ∧
      (∀ c, r = .error c → r' = .error c) ∧ (r' = .ok .satisfied → r = .ok .satisfied) := by
  have hd : d < Word.addressable := Nat.lt_of_le_of_lt hle he
  obtain ⟨r, hr⟩ := atLeast_succeeds ht hnames hd hlen
  obtain ⟨r', hr'⟩ := atLeast_succeeds ht hnames he hlen
  obtain ⟨lowered, kept, hopen, hasc, hclassify, hclassify'⟩ := exists_shared hd he hr hr'
  refine ⟨r, r', hr, hr', fun c => ?_, ?_⟩
  · rw [classifyAtLeast_eq_error_iff hopen hasc hclassify,
      classifyAtLeast_eq_error_iff hopen hasc hclassify']
    rintro ⟨hpos, hlt, hc⟩
    exact ⟨by omega, by omega, hc⟩
  · rw [classifyAtLeast_eq_satisfied_iff hopen hasc hclassify,
      classifyAtLeast_eq_satisfied_iff hopen hasc hclassify']
    intro hnone
    omega

/-- Beside a true literal and a complementary pair there are two literals: all five cannot hold, nor can
as many as the largest signed word says, while two hold anyway, and so does one. -/
theorem atLeast_monotone_extremes : ∃ t : Trail, t.Valid ∧ t.holds ⟨⟨1⟩, false⟩ = true ∧
    5 ≤ Word.addressable - 1 ∧
    atLeast [⟨⟨4⟩, true⟩, ⟨⟨2⟩, false⟩, ⟨⟨1⟩, false⟩, ⟨⟨3⟩, false⟩, ⟨⟨2⟩, true⟩] 5 t =
      .ok (.error .unreachableDegree) ∧
    atLeast [⟨⟨4⟩, true⟩, ⟨⟨2⟩, false⟩, ⟨⟨1⟩, false⟩, ⟨⟨3⟩, false⟩, ⟨⟨2⟩, true⟩]
      (Word.addressable - 1) t = .ok (.error .unreachableDegree) ∧
    atLeast [⟨⟨4⟩, true⟩, ⟨⟨2⟩, false⟩, ⟨⟨1⟩, false⟩, ⟨⟨3⟩, false⟩, ⟨⟨2⟩, true⟩] 2 t =
      .ok (.ok .satisfied) ∧
    atLeast [⟨⟨4⟩, true⟩, ⟨⟨2⟩, false⟩, ⟨⟨1⟩, false⟩, ⟨⟨3⟩, false⟩, ⟨⟨2⟩, true⟩] 1 t =
      .ok (.ok .satisfied) := by
  obtain ⟨t, ht, hvars, hholds, hfive, htwo⟩ : ∃ t : Trail, t.Valid ∧ t.vars = 4 ∧
      t.holds ⟨⟨1⟩, false⟩ = true ∧
      atLeast [⟨⟨4⟩, true⟩, ⟨⟨2⟩, false⟩, ⟨⟨1⟩, false⟩, ⟨⟨3⟩, false⟩, ⟨⟨2⟩, true⟩] 5 t =
        .ok (.error .unreachableDegree) ∧
      atLeast [⟨⟨4⟩, true⟩, ⟨⟨2⟩, false⟩, ⟨⟨1⟩, false⟩, ⟨⟨3⟩, false⟩, ⟨⟨2⟩, true⟩] 2 t =
        .ok (.ok .satisfied) :=
    ⟨_, (Kernel.Ready.empty.sound.trail.growTo (n := 4) (Nat.zero_le 4) rfl).push
      (l := ⟨⟨1⟩, false⟩) (r := none) (show 1 ≤ 1 ∧ 1 ≤ 4 by decide) rfl, rfl, rfl, rfl, rfl⟩
  have hnames : ∀ l ∈ [(⟨⟨4⟩, true⟩ : Literal), ⟨⟨2⟩, false⟩, ⟨⟨1⟩, false⟩, ⟨⟨3⟩, false⟩, ⟨⟨2⟩, true⟩],
      t.Names l := by simp [Trail.Names, hvars]
  have hlarge : 5 ≤ Word.addressable - 1 := by decide
  obtain ⟨r, r', hr, hr', hharder, -⟩ := atLeast_monotone ht hnames (by decide) hlarge (by decide)
  obtain ⟨p, p', hp, hp', -, heasier⟩ := atLeast_monotone ht hnames (by decide)
    (Nat.le_succ 1) (by decide)
  rw [hharder _ (Except.ok.inj (hr.symm.trans hfive))] at hr'
  rw [heasier (Except.ok.inj (hp'.symm.trans htwo))] at hp
  exact ⟨t, ht, hholds, hlarge, hfive, hr', htwo, hp⟩

/-! ## Degrees that no signed word holds -/

/-- Each pair that is cancelled lowers the degree by one and takes two literals. -/
theorem le_of_cancelPairs {d d' : Int} (h : cancelPairs d kept ls = .ok (d', rest)) :
    d + rest.length ≤ d' + kept.length + ls.length := by
  induction ls generalizing d kept with
  | nil =>
    unfold cancelPairs at h
    obtain ⟨rfl, rfl⟩ := Prod.mk.inj (Except.ok.inj h)
    simp
  | cons l ls ih =>
    cases kept with
    | nil =>
      rw [cancelPairs] at h
      have hle := ih h
      simp only [List.length_cons, List.length_nil] at hle ⊢
      omega
    | cons k kept =>
      rw [cancelPairs] at h
      split at h
      · obtain ⟨d₁, hd₁, h⟩ := bind_eq_ok_iff.1 h
        have hle := ih h
        rw [lower_eq_ok hd₁] at hle
        simp only [List.length_cons]
        omega
      · have hle := ih h
        simp only [List.length_cons] at hle ⊢
        omega

/-- No more literals hold than there are. -/
theorem atLeast_of_length_lt (ht : t.Valid) (hnames : ∀ l ∈ ls, t.Names l) (hlt : ls.length < d)
    (hd : d < Word.addressable) : atLeast ls d t = .ok (.error .unreachableDegree) := by
  obtain ⟨r, hr⟩ := atLeast_succeeds ht hnames hd (Nat.lt_trans hlt hd)
  obtain ⟨d', kept, hd', hopen, hasc, hclassify⟩ := exists_classified hr
  have hle := le_of_cancelPairs hd'
  have hparts := countP_add_length_le t ls
  rw [signedDegree_of_lt hd] at hle
  simp only [List.length_nil] at hle
  rw [hr, (classifyAtLeast_eq_error_iff hopen hasc hclassify).2 ⟨by omega, by omega, rfl⟩]

/-- Of no constraint can one more literal hold than it has, but no degree that is too large for a
signed word is refused. -/
theorem contradiction_lost (ht : t.Valid) (hnames : ∀ l ∈ ls, t.Names l)
    (hlen : ls.length + 1 < Word.addressable) (hlarge : Word.addressable ≤ e)
    (hword : e < Word.limit) :
    atLeast ls (ls.length + 1) t = .ok (.error .unreachableDegree) ∧
      ∀ c, atLeast ls e t ≠ .ok (.error c) := by
  refine ⟨atLeast_of_length_lt ht hnames (Nat.lt_succ_self _) hlen, fun c hc => ?_⟩
  simpa using atLeast_eq_ok_of_large hlarge hword hc

/-- The degree 2 is refused for one literal and the degree 2⁶³ is not, unless the literal is true:
lowered, this degree has no word. -/
theorem atLeast_not_monotone : ∃ t : Trail, t.Valid ∧ t.vars = 2 ∧ t.holds ⟨⟨1⟩, false⟩ = true ∧
    2 ≤ Word.addressable ∧ Word.addressable < Word.limit ∧
    atLeast [⟨⟨2⟩, false⟩] 2 t = .ok (.error .unreachableDegree) ∧
    atLeast [⟨⟨2⟩, false⟩] Word.addressable t = .ok (.ok .satisfied) ∧
    atLeast [⟨⟨1⟩, false⟩] Word.addressable t = .error .subtractionOverflow :=
  ⟨_, (Kernel.Ready.empty.sound.trail.growTo (n := 2) (Nat.zero_le 2) rfl).push
      (l := ⟨⟨1⟩, false⟩) (r := none) (show 1 ≤ 1 ∧ 1 ≤ 2 by decide) rfl, rfl, rfl, by decide,
    by decide, rfl, rfl, rfl⟩

end Cdcl.Intake
