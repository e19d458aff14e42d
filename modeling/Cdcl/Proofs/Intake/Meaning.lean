import Cdcl.Proofs.Kernel.Changes
import Cdcl.Proofs.Progress.Reading

/-!
# What an intake means

`AtLeastForm.Means` says what is left to be demanded of an assignment once an at-least constraint was
taken in. Over distinct literals that is what the constraint itself demands (`atLeast_means`), and
what is stored in its place is in order: at least two literals of a clause, and in an at-least
constraint ascending literals of distinct unassigned variables, of which more than one and not all
have to hold.
-/

namespace Cdcl.Intake
set_option autoImplicit false

/-- What a form of a clause demands of an assignment. -/
def ClauseForm.Means (a : Assignment) : ClauseForm → Prop
  | .satisfied => True
  | .unit l => a.makes l = true
  | .clause ls => a.Satisfies ls

/-- What a form of an at-least constraint demands of an assignment. -/
def AtLeastForm.Means (a : Assignment) : AtLeastForm → Prop
  | .satisfied => True
  | .units ls => ∀ l ∈ ls, a.makes l = true
  | .clause form => form.Means a
  | .atLeast ls degree => degree ≤ a.count ls

/-- What an outcome demands of an assignment; no assignment meets a contradiction. -/
def Means (a : Assignment) : Except Contradiction AtLeastForm → Prop
  | .error _ => False
  | .ok form => form.Means a

variable {t : Trail} {ls rest kept : List Literal} {l : Literal} {a : Assignment} {degree : Nat}

/-! ## Forms and what they are left of -/

theorem ClauseForm.LeftOf.means_iff {form : ClauseForm} (h : form.LeftOf t ls)
    (ha : a.Respects t) : form.Means a ↔ a.Satisfies ls := by
  cases form with
  | satisfied => exact ⟨fun _ => h a ha, fun _ => trivial⟩
  | unit l =>
    have hl : Remains t ls [l] := h
    rw [hl.satisfies_iff ha]
    simp [ClauseForm.Means, Assignment.Satisfies]
  | clause rest => exact (h.1.satisfies_iff ha).symm

theorem AtLeastTaken.means_iff {r : Except Contradiction AtLeastForm}
    (h : AtLeastTaken t ls degree r) (ha : a.Respects t) : Means a r ↔ degree ≤ a.count ls := by
  cases r with
  | error e => exact ⟨False.elim, h a ha⟩
  | ok form =>
    cases form with
    | satisfied => exact ⟨fun _ => h a ha, fun _ => trivial⟩
    | units us => exact (h.2.2 a ha).symm
    | clause form =>
      obtain ⟨kept, -, hleft, hiff⟩ := h
      exact (hleft.means_iff ha).trans (hiff a ha).symm
    | atLeast rest d => exact (h.2.2 a ha).symm

/-- An intake counts distinct literals as often as they hold. -/
theorem count_counted_of_nodup (hls : ls.Nodup) (ha : a.Respects t) :
    a.count (counted t ls) = a.count ls := by
  have hperm : (Literal.canonical (ls.filter (isOpen t))).Perm (ls.filter (isOpen t)) :=
    (List.perm_ext_iff_of_nodup (Assignment.nodup_canonical _) (hls.filter _)).2
      fun _ => Literal.mem_canonical
  rw [count_counted ha, count_eq ha ls, a.count_perm hperm]

/-! ## What is stored -/

/-- Cancelling pairs leaves the other literals in their order. -/
theorem cancelPairs_sublist {d d' : Int} (h : cancelPairs d kept ls = .ok (d', rest)) :
    rest.Sublist (kept.reverse ++ ls) := by
  induction ls generalizing d kept with
  | nil =>
    unfold cancelPairs at h
    obtain ⟨-, rfl⟩ := Prod.mk.inj (Except.ok.inj h)
    rw [List.append_nil]
  | cons l ls ih =>
    cases kept with
    | nil =>
      rw [cancelPairs] at h
      simpa using ih h
    | cons k kept =>
      rw [cancelPairs] at h
      split at h
      · obtain ⟨d₁, -, h⟩ := bind_eq_ok_iff.1 h
        refine (ih h).trans ?_
        rw [List.reverse_cons, List.append_assoc]
        exact ((List.sublist_cons_self l ls).trans (List.sublist_append_right [k] _)).append_left _
      · simpa using ih h

/-- The classification of an at-least constraint is given ascending literals of distinct unassigned
variables: the unassigned ones, less those that cancel. -/
theorem exists_classified {r : Except Contradiction AtLeastForm} (h : atLeast ls degree t = .ok r) :
    ∃ d kept, cancelPairs (signedDegree degree - ls.countP t.holds) []
        (Literal.canonical (ls.filter (isOpen t))) = .ok (d, kept) ∧
      Open t kept ∧ Literal.Ascending kept ∧ classifyAtLeast d kept t = .ok r := by
  obtain ⟨⟨d₁, opened⟩, hopened, h⟩ := bind_eq_ok_iff.1 h
  obtain ⟨⟨d₂, kept⟩, hkept, hclassify⟩ := bind_eq_ok_iff.1 h
  obtain ⟨rfl, hcount⟩ := countSatisfied_eq_ok hopened
  obtain rfl : d₁ = signedDegree degree - ls.countP t.holds := by omega
  have hasc := Literal.ascending_canonical (ls.filter (isOpen t))
  obtain ⟨-, hnodup, -⟩ := cancelPairs_eq_ok hkept (by simpa using hasc) List.nodup_nil
  have hsub : kept.Sublist (Literal.canonical (ls.filter (isOpen t))) := by
    simpa using cancelPairs_sublist hkept
  refine ⟨d₂, kept, hkept, ⟨fun l hl => ?_, hnodup⟩, hasc.sublist hsub, hclassify⟩
  exact isOpen_iff.1 (List.of_mem_filter (Literal.mem_canonical.1 (hsub.subset hl)))

theorem hasPair_of_distinct (h : (ls.map Literal.var).Nodup) : hasPair ls = false := by
  by_contra hpair
  obtain ⟨l, hl, hn⟩ := exists_of_hasPair (by simpa using hpair)
  have heq : l = -l := List.inj_on_of_nodup_map h hl hn rfl
  have hsign := congrArg Literal.negative heq
  simp at hsign

theorem classify_of_distinct (h : (ls.map Literal.var).Nodup) (hlen : 2 ≤ ls.length) :
    classify ls = .ok (.clause ls) := by
  unfold classify
  rw [hasPair_of_distinct h]
  match ls, hlen with
  | _ :: _ :: _, _ => rfl

/-- Ascending literals of distinct unassigned variables are classified as they are. -/
theorem clause_of_open {r : Except Contradiction ClauseForm} (hopen : Open t ls)
    (hasc : Literal.Ascending ls) (h : clause ls t = .ok r) : r = classify ls := by
  rcases clause_cases h with ⟨⟨l, hl, htrue⟩, -⟩ | ⟨rest, -, hrest, hmem, rfl⟩
  · simp [(Trail.unassigned_iff.1 (hopen.unassigned l hl)).1] at htrue
  · refine congrArg classify (Literal.eq_of_ascending hrest hasc fun k => (hmem k).trans ?_)
    exact ⟨And.left, fun hk => ⟨hk, (Trail.unassigned_iff.1 (hopen.unassigned k hk)).2⟩⟩

/-- How the degree compares with 0, 1 and the number of literals tells what is left of a constraint. -/
theorem classifyAtLeast_cases {d : Int} {r : Except Contradiction AtLeastForm} (hopen : Open t kept)
    (hasc : Literal.Ascending kept) (h : classifyAtLeast d kept t = .ok r) :
    (d ≤ 0 ∧ r = .ok .satisfied) ∨
      (0 < d ∧ kept.length < d ∧ r = .error .unreachableDegree) ∨
      (0 < d ∧ d = kept.length ∧ r = .ok (.units kept)) ∨
      (d = 1 ∧ 2 ≤ kept.length ∧ r = .ok (.clause (.clause kept))) ∨
      (2 ≤ d ∧ d < kept.length ∧ r = .ok (.atLeast kept d.toNat)) := by
  unfold classifyAtLeast at h
  split at h
  · next hd => exact Or.inl ⟨hd, (Except.ok.inj h).symm⟩
  split at h
  · next hd => exact Or.inr (Or.inl ⟨by omega, hd, (Except.ok.inj h).symm⟩)
  split at h
  · next hd => exact Or.inr (Or.inr (Or.inl ⟨by omega, hd, (Except.ok.inj h).symm⟩))
  split at h
  · next hd =>
    have hlen : 2 ≤ kept.length := by omega
    obtain ⟨form, hform, h⟩ := bind_eq_ok_iff.1 h
    rw [clause_of_open hopen hasc hform, classify_of_distinct hopen.distinct hlen] at h
    exact Or.inr (Or.inr (Or.inr (Or.inl ⟨hd, hlen, (Except.ok.inj h).symm⟩)))
  · exact Or.inr (Or.inr (Or.inr (Or.inr ⟨by omega, by omega, (Except.ok.inj h).symm⟩)))

theorem classifyAtLeast_eq_error_iff {d : Int} {r : Except Contradiction AtLeastForm}
    {c : Contradiction} (hopen : Open t kept) (hasc : Literal.Ascending kept)
    (h : classifyAtLeast d kept t = .ok r) :
    r = .error c ↔ 0 < d ∧ kept.length < d ∧ c = .unreachableDegree := by
  rcases classifyAtLeast_cases hopen hasc h with
    ⟨hd, rfl⟩ | ⟨hpos, hlt, rfl⟩ | ⟨-, hd, rfl⟩ | ⟨hd, hlen, rfl⟩ | ⟨-, hd, rfl⟩
  · simp only [reduceCtorEq, false_iff]
    omega
  · simp [hpos, hlt, eq_comm]
  all_goals
    simp only [reduceCtorEq, false_iff]
    omega

theorem classifyAtLeast_eq_satisfied_iff {d : Int} {r : Except Contradiction AtLeastForm}
    (hopen : Open t kept) (hasc : Literal.Ascending kept) (h : classifyAtLeast d kept t = .ok r) :
    r = .ok .satisfied ↔ d ≤ 0 := by
  rcases classifyAtLeast_cases hopen hasc h with
    ⟨hd, rfl⟩ | ⟨hd, -, rfl⟩ | ⟨hd, -, rfl⟩ | ⟨hd, -, rfl⟩ | ⟨hd, -, rfl⟩
  · simp [hd]
  all_goals
    simp only [reduceCtorEq, Except.ok.injEq, false_iff]
    omega

theorem of_clause {form : ClauseForm} (h : atLeast ls degree t = .ok (.ok (.clause form))) :
    ∃ rest, form = .clause rest ∧ 2 ≤ rest.length := by
  obtain ⟨d, kept, -, hopen, hasc, h⟩ := exists_classified h
  rcases classifyAtLeast_cases hopen hasc h with h | h | h | ⟨-, hlen, h⟩ | h
  · simp at h
  · simp at h
  · simp at h
  · simp only [Except.ok.injEq, AtLeastForm.clause.injEq] at h
    exact ⟨kept, h, hlen⟩
  · simp at h

theorem of_atLeast {d : Nat} (h : atLeast ls degree t = .ok (.ok (.atLeast rest d))) :
    Open t rest ∧ Literal.Ascending rest ∧ 2 ≤ d ∧ d < rest.length := by
  obtain ⟨d', kept, -, hopen, hasc, h⟩ := exists_classified h
  rcases classifyAtLeast_cases hopen hasc h with h | h | h | h | ⟨htwo, hlt, h⟩
  · simp at h
  · simp at h
  · simp at h
  · simp at h
  · simp only [Except.ok.injEq, AtLeastForm.atLeast.injEq] at h
    obtain ⟨rfl, rfl⟩ := h
    exact ⟨hopen, hasc, by omega, by omega⟩

/-! ## The whole intake -/

/-- There are not more distinct literals than codes. -/
theorem length_le_of_codes {n : Nat} (hls : ls.Nodup) (hcodes : ∀ l ∈ ls, l.code < n) :
    ls.length ≤ n := by
  have hnodup : (ls.map Literal.code).Nodup := hls.map fun _ _ => Literal.code_injective
  have hsub : ls.map Literal.code ⊆ List.range n := by
    intro c hc
    obtain ⟨l, hl, rfl⟩ := List.mem_map.1 hc
    exact List.mem_range.2 (hcodes l hl)
  have hle := (List.subperm_of_subset hnodup hsub).length_le
  rwa [List.length_map, List.length_range] at hle

/-- The intake of an at-least constraint over distinct literals has an outcome, and an assignment that
respects the trail meets it if and only if enough of the literals hold. What is stored is in order. -/
theorem atLeast_means (ht : t.Valid) (hnames : ∀ l ∈ ls, t.Names l)
    (hcodes : ∀ l ∈ ls, l.var.id < Var.signedLimit) (hls : ls.Nodup)
    (hdegree : degree < Word.addressable) :
    ∃ r, atLeast ls degree t = .ok r ∧
      (∀ a : Assignment, a.Respects t → (degree ≤ a.count ls ↔ Means a r)) ∧
      (∀ kept d, r = .ok (.atLeast kept d) →
        Literal.Ascending kept ∧ (kept.map Literal.var).Nodup ∧
        (∀ l ∈ kept, t.mark? l.var = none) ∧ 2 ≤ d ∧ d < kept.length ∧
        ∃ c, Constraint.atLeastOf kept d = .ok c) ∧
      ∀ form, r = .ok (.clause form) → ∃ kept, form = .clause kept ∧ 2 ≤ kept.length := by
  have hlen : ls.length < Word.addressable := by
    refine Nat.lt_of_le_of_lt (length_le_of_codes (n := 2 * Var.signedLimit) hls fun l hl => ?_)
      (by decide)
    have hid := hcodes l hl
    have hsign : l.negative.toNat ≤ 1 := Bool.toNat_le l.negative
    unfold Literal.code
    omega
  obtain ⟨r, hr⟩ := atLeast_succeeds ht hnames hdegree hlen
  have htaken := atLeast_eq_ok hdegree hr
  refine ⟨r, hr, fun a ha => ?_, ?_, ?_⟩
  · rw [htaken.means_iff ha, count_counted_of_nodup hls ha]
  · rintro kept d rfl
    obtain ⟨hopen, hasc, htwo, hlt⟩ := of_atLeast hr
    exact ⟨hasc, hopen.distinct, hopen.unassigned, htwo, hlt,
      Constraint.atLeastOf_succeeds (Nat.le_of_succ_le htwo) hlt⟩
  · rintro form rfl
    exact of_clause hr

/-- Under a true literal and with a complementary pair, at least four of six literals hold if and only
if two of the other three do. -/
theorem atLeast_means_two : ∃ t : Trail, t.Valid ∧ t.holds ⟨⟨1⟩, false⟩ = true ∧
    atLeast [⟨⟨4⟩, true⟩, ⟨⟨2⟩, false⟩, ⟨⟨1⟩, false⟩, ⟨⟨3⟩, false⟩, ⟨⟨2⟩, true⟩, ⟨⟨5⟩, false⟩] 4 t =
      .ok (.ok (.atLeast [⟨⟨3⟩, false⟩, ⟨⟨4⟩, true⟩, ⟨⟨5⟩, false⟩] 2)) ∧
    ∀ a : Assignment, a.Respects t →
      (4 ≤ a.count
          [⟨⟨4⟩, true⟩, ⟨⟨2⟩, false⟩, ⟨⟨1⟩, false⟩, ⟨⟨3⟩, false⟩, ⟨⟨2⟩, true⟩, ⟨⟨5⟩, false⟩] ↔
        2 ≤ a.count [⟨⟨3⟩, false⟩, ⟨⟨4⟩, true⟩, ⟨⟨5⟩, false⟩]) := by
  obtain ⟨t, ht, hvars, hholds, htaken⟩ : ∃ t : Trail, t.Valid ∧ t.vars = 5 ∧
      t.holds ⟨⟨1⟩, false⟩ = true ∧
      atLeast [⟨⟨4⟩, true⟩, ⟨⟨2⟩, false⟩, ⟨⟨1⟩, false⟩, ⟨⟨3⟩, false⟩, ⟨⟨2⟩, true⟩, ⟨⟨5⟩, false⟩] 4 t =
        .ok (.ok (.atLeast [⟨⟨3⟩, false⟩, ⟨⟨4⟩, true⟩, ⟨⟨5⟩, false⟩] 2)) :=
    ⟨_, (Kernel.Ready.empty.sound.trail.growTo (n := 5) (Nat.zero_le 5) rfl).push
      (l := ⟨⟨1⟩, false⟩) (r := none) (show 1 ≤ 1 ∧ 1 ≤ 5 by decide) rfl, rfl, rfl, rfl⟩
  obtain ⟨r, hr, hmeans, -⟩ := atLeast_means ht
    (show ∀ l ∈ [⟨⟨4⟩, true⟩, ⟨⟨2⟩, false⟩, ⟨⟨1⟩, false⟩, ⟨⟨3⟩, false⟩, ⟨⟨2⟩, true⟩, ⟨⟨5⟩, false⟩],
      t.Names l by simp [Trail.Names, hvars])
    (by simp [Var.signedLimit]) (by decide) (show 4 < Word.addressable by decide)
  obtain rfl := Except.ok.inj (htaken.symm.trans hr)
  exact ⟨t, ht, hholds, htaken, hmeans⟩

end Cdcl.Intake
