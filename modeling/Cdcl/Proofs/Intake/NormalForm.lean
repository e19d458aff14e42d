import Cdcl.Proofs.Intake.Meaning

/-!
# Normal forms of clauses

What `Intake.clause` leaves of a clause is a normal form of it (`clause_normalises`): it demands the
same as the clause, it depends on nothing but which literals the clause has, and taken in once more it
stays as it is.
-/

namespace Cdcl.Intake
set_option autoImplicit false

/-- What the outcome for a clause demands of an assignment; no assignment meets a contradiction. -/
def ClauseMeans (a : Assignment) : Except Contradiction ClauseForm → Prop
  | .error _ => False
  | .ok form => form.Means a

variable {t : Trail} {ls ms kept : List Literal} {l : Literal} {a : Assignment}
  {r r' : Except Contradiction ClauseForm}

theorem ClauseTaken.means_iff (h : ClauseTaken t ls r) (ha : a.Respects t) :
    ClauseMeans a r ↔ a.Satisfies ls := by
  cases r with
  | error e =>
    refine ⟨False.elim, ?_⟩
    rintro ⟨l, hl, htrue⟩
    have hfalse := ha (-l) (h l hl)
    simp [htrue] at hfalse
  | ok form => exact ClauseForm.LeftOf.means_iff h ha

/-- Neither the order nor the repetition of its literals makes a difference to a clause. -/
theorem clause_congr (hsame : ∀ l, l ∈ ls ↔ l ∈ ms) (h : clause ls t = .ok r)
    (h' : clause ms t = .ok r') : r = r' := by
  rcases clause_cases h with ⟨⟨l, hl, htrue⟩, rfl⟩ | ⟨rest, hfalse, hasc, hmem, rfl⟩
  · rcases clause_cases h' with ⟨-, rfl⟩ | ⟨_, hfalse, -⟩
    · rfl
    · exact absurd (htrue.symm.trans (hfalse l ((hsame l).1 hl))) (by simp)
  · rcases clause_cases h' with ⟨⟨l, hl, htrue⟩, -⟩ | ⟨rest', -, hasc', hmem', rfl⟩
    · exact absurd (htrue.symm.trans (hfalse l ((hsame l).2 hl))) (by simp)
    · refine congrArg classify (Literal.eq_of_ascending hasc hasc' fun k => ?_)
      rw [hmem, hmem', hsame]

/-- What is stored of a clause ascends. -/
theorem ascending_of_clause (h : clause ls t = .ok (.ok (.clause kept))) :
    Literal.Ascending kept := by
  rcases clause_cases h with ⟨-, hr⟩ | ⟨rest, -, hasc, -, hr⟩
  · simp at hr
  · unfold classify at hr
    split at hr
    · simp at hr
    · split at hr
      · simp at hr
      · simp at hr
      · simp only [Except.ok.injEq, ClauseForm.clause.injEq] at hr
        exact hr ▸ hasc

/-- The intake of a clause has an outcome, and an assignment that respects the trail meets it if and
only if some literal of the clause holds. A clause that is left ascends over two or more unassigned
variables. Only the set of the literals matters, and what is left is left again. -/
theorem clause_normalises (ht : t.Valid) (hnames : ∀ l ∈ ls, t.Names l) :
    ∃ r, clause ls t = .ok r ∧
      (∀ a : Assignment, a.Respects t → (a.Satisfies ls ↔ ClauseMeans a r)) ∧
      (∀ kept, r = .ok (.clause kept) →
        Literal.Ascending kept ∧ (kept.map Literal.var).Nodup ∧
        (∀ l ∈ kept, t.mark? l.var = none) ∧ 2 ≤ kept.length) ∧
      (∀ ms : List Literal, (∀ l, l ∈ ms ↔ l ∈ ls) → clause ms t = .ok r) ∧
      (∀ l, r = .ok (.unit l) → clause [l] t = .ok r) ∧
      ∀ kept, r = .ok (.clause kept) → clause kept t = .ok r := by
  obtain ⟨r, hr⟩ := clause_succeeds ht hnames
  have htaken := clause_eq_ok hr
  -- What is left is open and ascends, so another intake classifies it as it is.
  have hagain : ∀ kept, Remains t ls kept → Literal.Ascending kept →
      clause kept t = .ok (classify kept) := by
    intro kept hleft hasc
    obtain ⟨r', hr'⟩ := clause_succeeds ht fun l hl => hnames l ((hleft.members l).1 hl).1
    rw [hr', clause_of_open hleft.toOpen hasc hr']
  refine ⟨r, hr, fun a ha => (htaken.means_iff ha).symm, ?_, fun ms hms => ?_, ?_, ?_⟩
  · rintro kept rfl
    obtain ⟨hleft, htwo⟩ : Remains t ls kept ∧ 2 ≤ kept.length := htaken
    exact ⟨ascending_of_clause hr, hleft.distinct, hleft.unassigned, htwo⟩
  · obtain ⟨r', hr'⟩ := clause_succeeds ht fun l hl => hnames l ((hms l).1 hl)
    rw [hr', clause_congr hms hr' hr]
  · rintro l rfl
    have hleft : Remains t ls [l] := htaken
    exact hagain [l] hleft (List.pairwise_singleton _ l)
  · rintro kept rfl
    obtain ⟨hleft, htwo⟩ : Remains t ls kept ∧ 2 ≤ kept.length := htaken
    rw [hagain kept hleft (ascending_of_clause hr), classify_of_distinct hleft.distinct htwo]

/-- A false literal and a repeated one are dropped, in whichever order the literals come. -/
theorem clause_normalises_shuffled : ∃ t : Trail, t.Valid ∧ t.holds ⟨⟨5⟩, false⟩ = true ∧
    clause [⟨⟨4⟩, false⟩, ⟨⟨3⟩, true⟩, ⟨⟨1⟩, false⟩, ⟨⟨4⟩, false⟩, ⟨⟨5⟩, true⟩] t =
      .ok (.ok (.clause [⟨⟨1⟩, false⟩, ⟨⟨3⟩, true⟩, ⟨⟨4⟩, false⟩])) ∧
    (∀ a : Assignment, a.Respects t →
      (a.Satisfies [⟨⟨4⟩, false⟩, ⟨⟨3⟩, true⟩, ⟨⟨1⟩, false⟩, ⟨⟨4⟩, false⟩, ⟨⟨5⟩, true⟩] ↔
        a.Satisfies [⟨⟨1⟩, false⟩, ⟨⟨3⟩, true⟩, ⟨⟨4⟩, false⟩])) ∧
    clause [⟨⟨3⟩, true⟩, ⟨⟨5⟩, true⟩, ⟨⟨1⟩, false⟩, ⟨⟨4⟩, false⟩, ⟨⟨1⟩, false⟩] t =
      .ok (.ok (.clause [⟨⟨1⟩, false⟩, ⟨⟨3⟩, true⟩, ⟨⟨4⟩, false⟩])) := by
  obtain ⟨t, ht, hvars, hholds, htaken⟩ : ∃ t : Trail, t.Valid ∧ t.vars = 5 ∧
      t.holds ⟨⟨5⟩, false⟩ = true ∧
      clause [⟨⟨4⟩, false⟩, ⟨⟨3⟩, true⟩, ⟨⟨1⟩, false⟩, ⟨⟨4⟩, false⟩, ⟨⟨5⟩, true⟩] t =
        .ok (.ok (.clause [⟨⟨1⟩, false⟩, ⟨⟨3⟩, true⟩, ⟨⟨4⟩, false⟩])) :=
    ⟨_, (Kernel.Ready.empty.sound.trail.growTo (n := 5) (Nat.zero_le 5) rfl).push
      (l := ⟨⟨5⟩, false⟩) (r := none) (show 1 ≤ 5 ∧ 5 ≤ 5 by decide) rfl, rfl, rfl, rfl⟩
  obtain ⟨r, hr, hmeans, -, hshuffle, -⟩ := clause_normalises ht
    (show ∀ l ∈ [⟨⟨4⟩, false⟩, ⟨⟨3⟩, true⟩, ⟨⟨1⟩, false⟩, ⟨⟨4⟩, false⟩, ⟨⟨5⟩, true⟩],
      t.Names l by simp [Trail.Names, hvars])
  obtain rfl := Except.ok.inj (htaken.symm.trans hr)
  refine ⟨t, ht, hholds, htaken, hmeans, hshuffle _ fun l => ?_⟩
  simp only [List.mem_cons, List.not_mem_nil, or_false]
  tauto

end Cdcl.Intake
