import Cdcl.Proofs.Models.Enumeration

/-!
# The order of additions

What a solver answers depends on the formula alone (`StandsFor.solve_eq_ok`,
`StandsFor.count_eq_ok`), and so not on the order in which it was added, as long as repeated literals
make no difference (`Solver.additions_commute`).
-/

namespace Cdcl
set_option autoImplicit false

namespace Call

/-- What a call asks to add. -/
def demands : Call → Formula
  | addClause raws => [Demand.clause (raws.map Literal.ofSigned)]
  | addAtLeast raws degree => [⟨degree, raws.map Literal.ofSigned⟩]
  | _ => []

/-- An addition that repeated literals make no difference to. -/
def Regular : Call → Prop
  | addClause _ => True
  | addAtLeast raws degree =>
    degree < Word.addressable ∧ Demand.Regular ⟨degree, raws.map Literal.ofSigned⟩
  | _ => False

end Call

namespace Solver

variable {s s' : Solver} {F : Formula} {n fuel : Nat} {c : Call} {cs cs' : List Call} {r : Reply}
  {rs : List Reply} {v : Verdict} {tally : Models.Tally}

/-! ## Answers depend on the formula -/

/-- A solver between two calls to which the formula was given. -/
def StandsFor (s : Solver) (F : Formula) : Prop := s.Idle F ∨ s.Refuted F

/-- A search that comes to an end tells whether the formula is satisfiable. -/
theorem StandsFor.solve_eq_ok (h : s.StandsFor F) (hsized : s.Sized) (hunlimited : s.Unlimited)
    (hr : s.solve fuel [] = .ok (v, s')) (hfinished : v ≠ .unfinished) :
    (v = .satisfiable ∧ F.Satisfiable) ∨ (v = .unsatisfiable ∧ ¬ F.Satisfiable) := by
  rcases h with h | h
  · obtain ⟨-, -, hends⟩ := h.solve hsized.signed hr
    cases v with
    | satisfiable =>
      obtain ⟨-, m, -, hm⟩ := hends
      exact Or.inl ⟨rfl, _, hm.holds⟩
    | unsatisfiable =>
      rcases hends with ⟨-, hne, -⟩ | ⟨hrefuted, -⟩
      · exact absurd rfl hne
      · exact Or.inr ⟨rfl, hrefuted.unsatisfiable⟩
    | timeout => exact absurd rfl ((solve_retains hr).2 hunlimited)
    | unfinished => exact absurd rfl hfinished
  · obtain ⟨-, -, rfl, -⟩ := h.solve hr
    exact Or.inr ⟨rfl, h.unsatisfiable⟩

/-- A count that comes to an end is the number of models. -/
theorem StandsFor.count_eq_ok (h : s.StandsFor F) (hsized : s.Sized) (hunlimited : s.Unlimited)
    (hr : Models.count s fuel = .ok (tally, s')) (hfinished : tally ≠ .unfinished) :
    tally = .exact (modelsOf s.numVars F).length :=
  ((Models.Enumerates.start h hsized hunlimited).count hr hfinished).1

/-! ## Additions without a certificate -/

theorem Takes.standsFor {d : Demand} {a : Added} (h : s.Takes s' F d a)
    (herror : ∀ e, a = .error e → ∃ cause, e = .contradiction cause) : s'.StandsFor (F ++ [d]) := by
  match a, h with
  | .ok what, h => exact Or.inl h
  | .error (.contradiction cause), h => exact Or.inr h
  | .error .certificateUnsupported, _ =>
    obtain ⟨cause, hcause⟩ := herror _ rfl
    exact absurd hcause (by simp)

/-- An addition gives its demand to the solver. -/
theorem StandsFor.perform_eq_ok (h : s.StandsFor F) (hsized : s.Sized)
    (hcert : s.certificate = none) (hc : c.Regular) (hr : s.perform c = .ok (r, s')) :
    s'.StandsFor (F ++ c.demands) ∧ s'.numVars = s.numVars ∧ s.Retains s' := by
  cases performs_of_eq_ok hr with
  | addClause hr =>
    have hretains := addClause_retains hr
    rcases h with h | h
    · obtain ⟨hnum, htakes⟩ := h.addClause hsized hr
      refine ⟨htakes.standsFor ?_, hnum, hretains⟩
      rintro e rfl
      obtain ⟨ls, -, hr⟩ := bind_eq_ok_iff.1 hr
      exact addLiterals_error hr
    · obtain ⟨ls, -, hr⟩ := bind_eq_ok_iff.1 hr
      obtain ⟨rfl, -⟩ := h.addLiterals hr
      exact ⟨Or.inr h.append, rfl, hretains⟩
  | addAtLeast hr =>
    have hretains := addAtLeast_retains hr
    rcases h with h | h
    · obtain ⟨hnum, htakes⟩ := h.addAtLeast_regular hsized hc.1 hc.2 hr
      refine ⟨htakes.standsFor ?_, hnum, hretains⟩
      rintro e rfl
      exact addAtLeast_error hcert hr
    · obtain ⟨ls, -, hr⟩ := bind_eq_ok_iff.1 hr
      rw [if_pos h.refuted] at hr
      obtain ⟨-, rfl⟩ := Prod.mk.inj (Except.ok.inj hr)
      exact ⟨Or.inr h.append, rfl, hretains⟩
  | newVars _ => exact hc.elim
  | solve _ => exact hc.elim
  | limitTime _ => exact hc.elim
  | limitConflicts _ => exact hc.elim
  | enableCertificate _ => exact hc.elim

/-- Additions one after the other give all their demands to the solver. -/
theorem StandsFor.performAll_eq_ok (h : s.StandsFor F) (hsized : s.Sized)
    (hcert : s.certificate = none) (hcs : ∀ c ∈ cs, c.Regular)
    (hr : s.performAll cs = .ok (rs, s')) :
    s'.StandsFor (F ++ cs.flatMap Call.demands) ∧ s'.numVars = s.numVars ∧ s.Retains s' := by
  induction cs generalizing s F rs with
  | nil =>
    obtain ⟨-, rfl⟩ := Prod.mk.inj (Except.ok.inj hr)
    exact ⟨by rwa [List.flatMap_nil, List.append_nil], rfl, .refl s⟩
  | cons c cs ih =>
    obtain ⟨⟨r, s₁⟩, hs₁, hr⟩ := bind_eq_ok_iff.1 hr
    obtain ⟨⟨rs, s₂⟩, hs₂, hr⟩ := bind_eq_ok_iff.1 hr
    obtain ⟨-, rfl⟩ := Prod.mk.inj (Except.ok.inj hr)
    obtain ⟨h₁, hnum₁, hretains₁⟩ := h.perform_eq_ok hsized hcert (hcs c List.mem_cons_self) hs₁
    obtain ⟨h₂, hnum₂, hretains₂⟩ := ih h₁ (hretains₁.sized hnum₁ hsized)
      (hretains₁.certificate hcert) (fun c hc => hcs c (List.mem_cons_of_mem _ hc)) hs₂
    rw [List.flatMap_cons, ← List.append_assoc]
    exact ⟨h₂, hnum₂.trans hnum₁, hretains₁.trans hretains₂⟩

/-! ## New solvers -/

/-- A new solver with so many variables that keeps no certificate. -/
structure Fresh (s : Solver) (n : Nat) : Prop where
  idle : s.Idle []
  numVars : s.numVars = n
  sized : s.Sized
  unlimited : s.Unlimited
  certificate : s.certificate = none
  blank : ∀ v, s.trail.mark? v = none

/-- A new solver that keeps no certificate and was given so many variables and then the additions. -/
def Fed (s : Solver) (n : Nat) (cs : List Call) : Prop :=
  ∃ config s₀ rs, config.certificate = false ∧ create config = .ok s₀ ∧
    s₀.performAll (.newVars n :: cs) = .ok (rs, s)

theorem Fed.fresh (h : s.Fed n cs) (hn : n < Var.signedLimit) :
    ∃ (s₁ : Solver) (rs : List Reply), s₁.Fresh n ∧ s₁.performAll cs = .ok (rs, s) := by
  obtain ⟨config, s₀, rs, hconfig, hcreate, hr⟩ := h
  obtain ⟨hidle₀, hnum₀⟩ := create_eq_ok hcreate
  obtain ⟨o, -, hcreate⟩ := bind_eq_ok_iff.1 hcreate
  obtain ⟨restarts, -, hcreate⟩ := bind_eq_ok_iff.1 hcreate
  obtain rfl := Except.ok.inj hcreate
  obtain ⟨⟨r, s₁⟩, hs₁, hr⟩ := bind_eq_ok_iff.1 hr
  obtain ⟨⟨rs, s₂⟩, hs₂, hr⟩ := bind_eq_ok_iff.1 hr
  obtain ⟨-, rfl⟩ := Prod.mk.inj (Except.ok.inj hr)
  obtain ⟨s₁, hvars, hs₁⟩ := bind_eq_ok_iff.1 hs₁
  obtain ⟨-, rfl⟩ := Prod.mk.inj (Except.ok.inj hs₁)
  obtain ⟨hidle, hnum⟩ := hidle₀.newVars hvars
  rw [hnum₀, Nat.zero_add] at hnum
  have hretains := newVars_retains hvars
  have hcert := hretains.certificate (if_neg (by simp [hconfig]))
  refine ⟨s₁, rs, ⟨hidle, hnum, ⟨hnum.symm ▸ hn, fun hsome => absurd hcert hsome⟩,
    hretains.unlimited ⟨rfl, rfl⟩, hcert, fun v => ?_⟩, hs₂⟩
  exact ((Trail.growTo_eq_ok (trail_newVars hvars)).1 v).trans rfl

theorem Fed.standsFor (h : s.Fed n cs) (hn : n < Var.signedLimit) (hcs : ∀ c ∈ cs, c.Regular) :
    s.StandsFor (cs.flatMap Call.demands) ∧ s.numVars = n ∧ s.Sized ∧ s.Unlimited := by
  obtain ⟨s₁, rs, h₁, hr⟩ := h.fresh hn
  obtain ⟨hstands, hnum, hretains⟩ :=
    StandsFor.performAll_eq_ok (Or.inl h₁.idle) h₁.sized h₁.certificate hcs hr
  exact ⟨hstands, hnum.trans h₁.numVars, hretains.sized hnum h₁.sized,
    hretains.unlimited h₁.unlimited⟩

/-- Proper additions can be made to a new solver. -/
theorem exists_fed (hcs : Call.AllProper 0 (.newVars n :: cs)) : ∃ s : Solver, s.Fed n cs := by
  have hcreate : create Config.plain = .ok _ := rfl
  obtain ⟨hidle, hvars⟩ := create_eq_ok hcreate
  obtain ⟨rs, s, hr, -⟩ := Supplied.performAll (n := 0)
    (create_supplied hcreate (Restart.fits_never _)) (Or.inl ⟨[], hidle⟩)
    (hvars.symm ▸ (by decide : 0 < Event.varLimit)) (hvars.symm ▸ hcs)
  exact ⟨s, Config.plain, _, rs, rfl, hcreate, hr⟩

/-- Searches and counts that come to an end give the same on both solvers. -/
structure Agrees (s s' : Solver) : Prop where
  answers : ∀ {fuel fuel' v v' t t'}, s.solve fuel [] = .ok (v, t) →
    s'.solve fuel' [] = .ok (v', t') → v ≠ .unfinished → v' ≠ .unfinished → v = v'
  counts : ∀ {fuel fuel' m m' t t'}, Models.count s fuel = .ok (m, t) →
    Models.count s' fuel' = .ok (m', t') → m ≠ .unfinished → m' ≠ .unfinished → m = m'

theorem holds_flatMap_perm (h : cs.Perm cs') (a : Assignment) :
    Formula.Holds (cs.flatMap Call.demands) a ↔ Formula.Holds (cs'.flatMap Call.demands) a :=
  have hperm : (cs.flatMap Call.demands).Perm (cs'.flatMap Call.demands) := h.flatMap_right _
  ⟨fun hall d hd => hall d (hperm.mem_iff.2 hd), fun hall d hd => hall d (hperm.mem_iff.1 hd)⟩

/-- New solvers without a certificate that were given the same variables and additions in different
orders agree, as long as repeated literals make no difference to the at-least constraints. -/
theorem additions_commute (hn : n < Var.signedLimit) (hcs : ∀ c ∈ cs, c.Regular)
    (hperm : cs.Perm cs') (h : s.Fed n cs) (h' : s'.Fed n cs') : s.Agrees s' := by
  obtain ⟨hstands, hnum, hsized, hunlimited⟩ := h.standsFor hn hcs
  obtain ⟨hstands', hnum', hsized', hunlimited'⟩ :=
    h'.standsFor hn fun c hc => hcs c (hperm.mem_iff.2 hc)
  have hholds := holds_flatMap_perm hperm
  refine ⟨fun hr hr' hfinished hfinished' => ?_, fun hr hr' hfinished hfinished' => ?_⟩
  · have hsat : Formula.Satisfiable (cs.flatMap Call.demands) ↔
        Formula.Satisfiable (cs'.flatMap Call.demands) := exists_congr hholds
    rcases hstands.solve_eq_ok hsized hunlimited hr hfinished with ⟨rfl, hyes⟩ | ⟨rfl, hno⟩
    · rcases hstands'.solve_eq_ok hsized' hunlimited' hr' hfinished' with ⟨rfl, -⟩ | ⟨-, hno'⟩
      · rfl
      · exact absurd (hsat.1 hyes) hno'
    · rcases hstands'.solve_eq_ok hsized' hunlimited' hr' hfinished' with ⟨-, hyes'⟩ | ⟨rfl, -⟩
      · exact absurd (hsat.2 hyes') hno
      · rfl
  · rw [hstands.count_eq_ok hsized hunlimited hr hfinished,
      hstands'.count_eq_ok hsized' hunlimited' hr' hfinished', hnum, hnum', modelsOf_congr hholds]

/-- The clause that a list with repetitions stands for may be added before or after a unit. -/
theorem additions_commute_clause_and_unit : ∃ s s' : Solver,
    s.Fed 2 [.addAtLeast [1, 1, 2] 1, .addClause [-1]] ∧
    s'.Fed 2 [.addClause [-1], .addAtLeast [1, 1, 2] 1] ∧ s.Agrees s' := by
  obtain ⟨s, h⟩ : ∃ s : Solver, s.Fed 2 [.addAtLeast [1, 1, 2] 1, .addClause [-1]] :=
    exists_fed (by decide)
  obtain ⟨s', h'⟩ : ∃ s : Solver, s.Fed 2 [.addClause [-1], .addAtLeast [1, 1, 2] 1] :=
    exists_fed (by decide)
  refine ⟨s, s', h, h', additions_commute (by decide) (fun c hc => ?_) (.swap _ _ _) h h'⟩
  rcases List.mem_pair.1 hc with rfl | rfl
  · exact ⟨by decide, Demand.regular_clause _⟩
  · exact trivial

end Solver
end Cdcl
