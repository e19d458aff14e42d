import Cdcl.Proofs.Progress.Termination
import Cdcl.Proofs.Solver.Teaching

/-!
# Conflict limits

A search under a limit on conflicts and none on time meets at most that many conflicts, or one if the
limit is zero, and gives up only once it has met as many. Afterwards it is at level 0, and there is a
model just when it was satisfiable (`Reachable.budget_exact`). It fails when the limit and the conflicts
met before do not fit a word together, and when a restart interval does not fit one.
-/

namespace Cdcl
set_option autoImplicit false

variable {b : Budget} {r r' : Round} {a a' : Account} {out : Outcome} {v : Verdict} {n limit : Nat}

/-! ## Counting -/

/-- The account of a search under a limit, after it has started with some conflicts and ended with a
verdict. -/
structure Budgeted (limit start : Nat) (v : Verdict) (a : Account) : Prop where
  conflicts : a.conflicts ≤ max limit (start + 1)
  timeout : v = .timeout → limit ≤ a.conflicts
  model : (∃ m, a.model = some m) ↔ v = .satisfiable

namespace Advances

theorem goesOn (h : Advances ⟨none, some limit⟩ r a (.goOn r') a') : a'.model = a.model ∧
    (a'.conflicts = a.conflicts ∨ a'.conflicts = a.conflicts + 1 ∧ a.conflicts + 1 < limit) := by
  cases h with
  | learnt hleft =>
    have hlt : a.conflicts + 1 < limit := by simpa [Budget.exhausted] using hleft
    exact ⟨rfl, Or.inr ⟨rfl, hlt⟩⟩
  | restarted | decided => exact ⟨rfl, Or.inl rfl⟩

theorem finishes (h : Advances ⟨none, some limit⟩ r a (.finish v) a') (hnone : a.model = none) :
    Budgeted limit a.conflicts v a' := by
  cases h with
  | refuted => exact ⟨Nat.le_max_right _ _, by simp, by simp [hnone]⟩
  | exhausted hover =>
    have hle : limit ≤ a.conflicts + 1 := by simpa [Budget.exhausted] using hover
    exact ⟨Nat.le_max_right _ _, fun _ => hle, by simp [hnone]⟩
  | stopped _ hover =>
    have hle : limit ≤ a.conflicts := by simpa [Budget.exhausted] using hover
    exact ⟨by dsimp only; omega, fun _ => hle, by simp [hnone]⟩
  | failed => exact ⟨by omega, by simp, by simp [hnone]⟩
  | found => exact ⟨by dsimp only; omega, by simp, by simp⟩

theorem fits (h : Advances b r a out a') (hfits : a.intervals.Fits (n + 1)) :
    a'.intervals.Fits n := by
  cases h with
  | restarted _ _ hnext =>
    obtain ⟨interval, intervals, hnext', hfits'⟩ := hfits
    obtain ⟨-, rfl⟩ := Prod.mk.inj (Except.ok.inj (hnext.symm.trans hnext'))
    exact hfits'
  | _ => exact hfits.mono (Nat.le_succ n)

end Advances

namespace Solver

variable {s s' s₁ : Solver} {F : Formula} {A : List Literal} {fuel : Nat} {raws : List Int}

theorem run_budgeted (hr : run ⟨none, some limit⟩ A fuel r s = .ok (v, s'))
    (hnone : s.model = none) : Budgeted limit s.stats.conflicts v s'.account := by
  -- As long as the search goes on, it may meet one more conflict.
  refine run_induction
    (P := fun _ t => t.account.model = none ∧
      t.account.conflicts + 1 ≤ max limit (s.stats.conflicts + 1))
    (Q := fun v t => Budgeted limit s.stats.conflicts v t.account) hr
    ⟨hnone, Nat.le_max_right _ _⟩ ?_ ?_ ?_
  · rintro r₁ s₁ r₂ s₂ ⟨hnone, hmore⟩ hs₂
    obtain ⟨hmodel, hconflicts⟩ := (step_advances hs₂).goesOn
    exact ⟨hmodel.trans hnone, by omega⟩
  · rintro r₁ s₁ v s₂ ⟨hnone, hmore⟩ hs₂
    have h := (step_advances hs₂).finishes hnone
    exact ⟨Nat.le_trans h.conflicts (by omega), h.timeout, h.model⟩
  · rintro r₁ s₁ ⟨hnone, hmore⟩
    exact ⟨by omega, by simp, by simp [hnone]⟩

/-! ## Having a result -/

/-- An operation has a result unless the next restart intervals do not fit a word. -/
def Succeeds {α : Type} (s : Solver) (n : Nat) (x : Except Fault α) : Prop :=
  (∃ y, x = .ok y) ∨ x = .error .multiplicationOverflow ∧ ¬ s.restarts.Fits n

theorem Searching.restart_succeeds (h : s.Searching F A) : s.Succeeds 1 (Solver.restart b s) := by
  obtain ⟨s₁, hs₁⟩ := h.standing.backtrack_succeeds
  have hsame : s₁.restarts = s.restarts := congrArg Account.intervals (account_backtrack hs₁)
  unfold Solver.restart Succeeds
  rw [hs₁]
  dsimp only [bind, Except.bind]
  split
  · exact Or.inl ⟨_, rfl⟩
  · change (∃ y, (s₁.restarts.next >>= _) = _) ∨ (s₁.restarts.next >>= _) = _ ∧ _
    rw [hsame]
    rcases s.restarts.next_succeeds_or with ⟨interval, restarts, hnext⟩ | ⟨herror, hnot⟩
    · exact Or.inl ⟨_, bind_eq_ok_iff.2 ⟨_, hnext, rfl⟩⟩
    · exact Or.inr ⟨by rw [herror]; rfl, hnot 0⟩

theorem Searching.step_succeeds (h : s.Searching F A) (b : Budget) (r : Round) :
    s.Succeeds 1 (Solver.step b A r s) := by
  obtain ⟨conflict, s₁, hs₁, -⟩ := h.propagate
  cases conflict with
  | some ref => exact Or.inl (h.succeeds_of_conflict hs₁ b r)
  | none =>
    cases hover : r.isOver with
    | false =>
      obtain ⟨_, x, hx, -⟩ := h.stepBy_of_fixpoint (b := b) hs₁ Strategy.own_allowed hover
      exact Or.inl ⟨x, step_eq_stepBy.trans hx⟩
    | true =>
      obtain ⟨s₂, hs₂, h₂, -, -, -, hpace⟩ := h.settle hs₁
      have hstep : Solver.step b A r s = restart b s₂ := by
        unfold Solver.step
        rw [hs₁]
        change onFixpoint b A r s₁ = _
        rw [onFixpoint_eq, hs₂]
        exact if_pos hover
      have hsame : s₂.restarts = s.restarts := congrArg Pace.restarts hpace
      have hrestart : s₂.Succeeds 1 (restart b s₂) := h₂.restart_succeeds
      unfold Succeeds at hrestart ⊢
      rwa [hstep, ← hsame]

theorem Searching.run_succeeds (h : s.Searching F A) (b : Budget) (fuel : Nat) (r : Round) :
    s.Succeeds fuel (Solver.run b A fuel r s) := by
  induction fuel generalizing s r with
  | zero => exact Or.inl ⟨_, rfl⟩
  | succ fuel ih =>
    unfold Solver.run Succeeds
    rcases h.step_succeeds b r with ⟨⟨out, s₁⟩, hs₁⟩ | ⟨herror, hfits⟩
    · rw [hs₁]
      cases out with
      | finish v => exact Or.inl ⟨_, rfl⟩
      | goOn r₁ =>
        refine (ih ((h.step hs₁).2 r₁ rfl) r₁).imp id (And.imp_right fun hno hfits => hno ?_)
        exact (step_advances hs₁).fits hfits
    · rw [herror]
      exact Or.inr ⟨rfl, fun h => hfits (h.mono (Nat.le_add_left 1 fuel))⟩

/-- A conflict above level 0 that uses up the limit ends the search. -/
theorem Searching.times_out {conflict : ClauseRef} (h : s.Searching F A)
    (hs₁ : s.propagate = .ok (some conflict, s₁)) (hlev : s₁.trail.level ≠ 0)
    (hle : limit ≤ s.stats.conflicts + 1) (r : Round) :
    ∃ s₂, Solver.step ⟨none, some limit⟩ A r s = .ok (.finish .timeout, s₂) ∧
      s₂.stats.conflicts = s.stats.conflicts + 1 ∧ s₂.refuted = false := by
  obtain ⟨⟨out, s₂⟩, hstep⟩ := h.succeeds_of_conflict hs₁ ⟨none, some limit⟩ r
  obtain ⟨_, hsame, hr⟩ := bind_eq_ok_iff.1 hstep
  obtain rfl := Except.ok.inj (hs₁.symm.trans hsame)
  change onConflict _ r conflict s₁ = _ at hr
  obtain ⟨hkeeps₁, hclash, hlists₁, -⟩ := h.sane.propagate hs₁
  obtain ⟨hsane₂, -, hout⟩ := onConflict_learns hkeeps₁ hclash hlists₁ hlev hr
  have hbefore : s₁.stats.conflicts = s.stats.conflicts :=
    congrArg Account.conflicts (account_propagate hs₁)
  obtain ⟨hadvances, hcount⟩ := onConflict_advances hr
  rw [hbefore] at hcount
  rcases hout with rfl | rfl
  · exact ⟨s₂, hstep, hcount, hsane₂.keeps.undecided⟩
  · have hmore : s₂.account.conflicts = s₁.account.conflicts + 1 :=
      hcount.trans (congrArg (· + 1) hbefore.symm)
    have hlt : s₁.stats.conflicts + 1 < limit := by
      rcases hadvances.goesOn.2 with hsame | ⟨-, hlt⟩
      · omega
      · exact hlt
    omega

/-! ## Searches -/

theorem budget_of_limit (htime : s.timeLimit = none) (hlimit : s.conflictLimit = some n) :
    s.budget = (Word.add s.stats.conflicts n).map (⟨none, some ·⟩) := by
  unfold Solver.budget
  rw [htime, hlimit]
  change (Word.add s.stats.conflicts n >>= fun sum => .ok (Budget.mk none (some sum))) = _
  cases Word.add s.stats.conflicts n <;> rfl

theorem budget_of_lt (htime : s.timeLimit = none) (hlimit : s.conflictLimit = some n)
    (hlt : s.stats.conflicts + n < Word.limit) :
    s.budget = .ok ⟨none, some (s.stats.conflicts + n)⟩ := by
  rw [budget_of_limit htime hlimit, Word.add, if_pos hlt]
  rfl

/-- The limit and the conflicts met before have to fit a word together. -/
theorem solve_of_limit_le (hopen : s.refuted = false) (htime : s.timeLimit = none)
    (hlimit : s.conflictLimit = some n) (hraws : InRange s.numVars raws)
    (hle : Word.limit ≤ s.stats.conflicts + n) :
    s.solve fuel raws = .error .additionOverflow := by
  obtain ⟨ls, hls⟩ := literals_succeeds hraws
  rw [solve_eq hopen, hls, budget_of_limit htime hlimit, Word.add, if_neg (Nat.not_lt.2 hle)]
  rfl

/-- A search under a limit that fits ends within it, as far as restart intervals fit. -/
theorem solve_of_limit_lt (h : ∀ ls restarts, s.literals raws = .ok ls →
      ∃ F, (s.atStart ls.length restarts).Searching F ls) (hopen : s.refuted = false)
    (htime : s.timeLimit = none) (hlimit : s.conflictLimit = some n)
    (hraws : InRange s.numVars raws) (hlt : s.stats.conflicts + n < Word.limit) :
    (∃ v s', s.solve fuel raws = .ok (v, s') ∧ s'.trail.level = 0 ∧
      Budgeted (s.stats.conflicts + n) s.stats.conflicts v s'.account) ∨
    s.solve fuel raws = .error .multiplicationOverflow ∧ ¬ s.restarts.Fits (fuel + 1) := by
  obtain ⟨ls, hls⟩ := literals_succeeds hraws
  have hbudget := budget_of_lt htime hlimit hlt
  rcases s.restarts.next_succeeds_or with ⟨interval, restarts, hnext⟩ | ⟨herror, hnot⟩
  · obtain ⟨F, hstart⟩ := h ls restarts hls
    rcases hstart.run_succeeds ⟨none, some (s.stats.conflicts + n)⟩ fuel { interval } with
      ⟨⟨v, s₁⟩, hs₁⟩ | ⟨herror, hnot⟩
    · have hstanding := hstart.run hs₁
      obtain ⟨s₂, hs₂⟩ := hstanding.backtrack_succeeds
      have hlevel := (hstanding.backtrack hs₂).2
      have hbudgeted := run_budgeted hs₁ rfl
      rw [← account_backtrack hs₂] at hbudgeted
      exact Or.inl ⟨v, _, solve_of_run hopen hls hbudget hnext hs₁ hs₂, hlevel, hbudgeted⟩
    · refine Or.inr ⟨?_, ?_⟩
      · rw [solve_eq hopen, hls, hbudget, hnext]
        change (run _ ls fuel _ _ >>= _) = _
        rw [herror]
        rfl
      · rintro ⟨interval', restarts', hnext', hfits⟩
        obtain ⟨-, rfl⟩ := Prod.mk.inj (Except.ok.inj (hnext.symm.trans hnext'))
        exact hnot hfits
  · refine Or.inr ⟨?_, hnot fuel⟩
    rw [solve_eq hopen, hls, hbudget, herror]
    rfl

end Solver

open Solver

/-- A search of a solver with a limit on conflicts and none on time meets no more conflicts than the
limit, or one if it is zero. It times out only after as many conflicts, and whatever the outcome, the
solver is at level 0 and has a model just when the formula was satisfiable under the assumptions. It
has a result unless a restart interval does not fit a word. But if the limit and the conflicts met so
far do not fit a word together, then the search of an open formula fails before it starts. -/
theorem Reachable.budget_exact {config : Config} {s : Solver} {n : Nat} {raws : List Int}
    (h : Reachable config s) (htime : s.timeLimit = none) (hlimit : s.conflictLimit = some n)
    (hraws : InRange s.numVars raws) (fuel : Nat) :
    (s.refuted = true ∨ s.stats.conflicts + n < Word.limit →
      (∃ v s', s.solve fuel raws = .ok (v, s') ∧
        s'.stats.conflicts ≤ s.stats.conflicts + max n 1 ∧
        (v = .timeout → s.stats.conflicts + n ≤ s'.stats.conflicts) ∧
        s'.trail.level = 0 ∧ ((∃ m, s'.model = some m) ↔ v = .satisfiable)) ∨
      s.solve fuel raws = .error .multiplicationOverflow ∧ ¬ s.restarts.Fits (fuel + 1)) ∧
    (s.refuted = false → Word.limit ≤ s.stats.conflicts + n →
      s.solve fuel raws = .error .additionOverflow) := by
  refine ⟨fun hfree => ?_, fun hopen hle => solve_of_limit_le hopen htime hlimit hraws hle⟩
  cases hrefuted : s.refuted with
  | true =>
    exact Or.inl ⟨_, _, solve_eq_of_refuted hrefuted, Nat.le_add_right _ _, by simp, h.standing.2,
      by simp [Solver.note]⟩
  | false =>
    have hlt : s.stats.conflicts + n < Word.limit := hfree.resolve_left (by simp [hrefuted])
    refine (solve_of_limit_lt (fun ls restarts hls => h.searching hrefuted hls restarts) hrefuted
      htime hlimit hraws hlt).imp ?_ id
    rintro ⟨v, s', hr, hlevel, hbudgeted⟩
    have hconflicts : s'.stats.conflicts ≤ max (s.stats.conflicts + n) (s.stats.conflicts + 1) :=
      hbudgeted.conflicts
    exact ⟨v, s', hr, by omega, hbudgeted.timeout, hlevel, hbudgeted.model⟩

/-! ## A limit of one conflict -/

namespace Reachable

theorem exists_limited : ∃ s : Solver,
    Through Config.plain [.newVars 3, .addClause [-1, -2, 3], .addClause [-1, -2, -3],
      .limitConflicts (some 1)] s ∧ s.refuted = false ∧
    s.literals [1, 2] = .ok [⟨⟨1⟩, false⟩, ⟨⟨2⟩, false⟩] ∧
    s.Bare .opposed ⟨⟨#[false, false, false, false]⟩, []⟩ ∧
    s.account = ⟨none, some 1, false, .never, 0, 0, none⟩ := by
  obtain ⟨s, h, hopen, hls, hbare, haccount⟩ := exists_opposed
  exact ⟨_, h.call (c := .limitConflicts (some 1)) trivial rfl h.reachable.standing.1.vars, hopen,
    (literals_congr rfl).trans hls,
    ⟨⟨hbare.learnts, hbare.certificate⟩, hbare.kernel, hbare.analyzer, hbare.simplified⟩,
    congrArg (fun a : Account => { a with conflictLimit := some 1 }) haccount⟩

/-- Both assumptions are decided, and the conflict that follows is the last one. -/
theorem exists_run_out {s : Solver} {F : Formula}
    (hbare : s.Bare .opposed ⟨⟨#[false, false, false, false]⟩, []⟩)
    (h : s.Searching F [⟨⟨1⟩, false⟩, ⟨⟨2⟩, false⟩]) (hzero : s.stats.conflicts = 0) :
    ∃ s', run ⟨none, some 1⟩ [⟨⟨1⟩, false⟩, ⟨⟨2⟩, false⟩] 3 ⟨none, 0⟩ s = .ok (.timeout, s') ∧
      s'.Standing ∧ s'.refuted = false ∧ s'.stats.conflicts = 1 := by
  obtain ⟨s₁, s₂, s₃, hs₁, hs₂, hprop, h₃⟩ :=
    hbare.exists_conflict (r := ⟨none, 0⟩) rfl ⟨none, some 1⟩
  have hlev : s₃.trail.level ≠ 0 := by
    unfold Solver.trail
    rw [h₃.kernel]
    decide
  have hzero₂ : s₂.account.conflicts = 0 := by
    have hzero₀ : s.account.conflicts = 0 := hzero
    have hcount₁ := (step_advances hs₁).goesOn.2
    have hcount₂ := (step_advances hs₂).goesOn.2
    omega
  have h₂ := (Rounds.goOn (.goOn .start hs₁) hs₂).searching h
  have hlast : 1 ≤ s₂.stats.conflicts + 1 := Nat.le_add_left 1 _
  obtain ⟨s₄, hs₄, hone, hopen⟩ := h₂.times_out hprop hlev hlast ⟨none, 0⟩
  exact ⟨s₄, bind_eq_ok_iff.2 ⟨_, hs₁, bind_eq_ok_iff.2 ⟨_, hs₂, bind_eq_ok_iff.2 ⟨_, hs₄, rfl⟩⟩⟩,
    (h₂.step hs₄).1, hopen, hone.trans (congrArg (· + 1) hzero₂)⟩

/-- Two assumptions that contradict two clauses use up a limit of one conflict. -/
theorem exists_exhausted : ∃ s s' : Solver,
    Through Config.plain [.newVars 3, .addClause [-1, -2, 3], .addClause [-1, -2, -3],
      .limitConflicts (some 1)] s ∧
    s.account = ⟨none, some 1, false, .never, 0, 0, none⟩ ∧ InRange s.numVars [1, 2] ∧
    s.solve 3 [1, 2] = .ok (.timeout, s') ∧ s'.refuted = false ∧ s'.stats.conflicts = 1 ∧
    s'.numVars < Event.varLimit := by
  obtain ⟨s, h, hopen, hls, hbare, haccount⟩ := exists_limited
  have hzero : s.stats.conflicts = 0 := congrArg Account.conflicts haccount
  have hnever : s.restarts = .never := congrArg Account.intervals haccount
  have hnext : s.restarts.next = .ok (none, .never) := by
    rw [hnever]
    rfl
  have hbudget : s.budget = .ok ⟨none, some 1⟩ := by
    rw [budget_of_lt (congrArg Account.timeLimit haccount) (congrArg Account.conflictLimit haccount)
      (by rw [hzero]; decide), hzero]
  obtain ⟨F, hsearching⟩ := h.reachable.searching hopen hls .never
  obtain ⟨s₁, hs₁, hstanding, hopen₁, hone⟩ := exists_run_out hbare.atStart hsearching hzero
  obtain ⟨s₂, hs₂⟩ := hstanding.backtrack_succeeds
  have hsolve := solve_of_run hopen hls hbudget hnext hs₁ hs₂
  have hcount : s₂.stats.conflicts = s₁.stats.conflicts :=
    congrArg Account.conflicts (account_backtrack hs₂)
  have hopen₂ : s₂.refuted = false := by
    obtain ⟨o, -, rfl⟩ := backtrack_eq_ok hs₂
    exact hopen₁
  exact ⟨s, _, h, haccount, inRange_of_literals hls, hsolve, hopen₂, hcount.trans hone,
    (hstanding.backtrack hs₂).1.vars⟩

theorem budget_exact_exhausted : ∃ s s' : Solver,
    Through Config.plain [.newVars 3, .addClause [-1, -2, 3], .addClause [-1, -2, -3],
      .limitConflicts (some 1)] s ∧ s.stats.conflicts = 0 ∧
    s.solve 3 [1, 2] = .ok (.timeout, s') ∧ s'.stats.conflicts = 1 ∧ s'.trail.level = 0 ∧
    s'.model = none := by
  obtain ⟨s, s', h, haccount, hraws, hr, -⟩ := exists_exhausted
  have hzero : s.stats.conflicts = 0 := congrArg Account.conflicts haccount
  have hexact := budget_exact h.reachable (congrArg Account.timeLimit haccount)
    (congrArg Account.conflictLimit haccount) hraws 3
  rcases hexact.1 (Or.inr (by rw [hzero]; decide)) with
    ⟨v, s₁, hr₁, hmost, hleast, hlevel, hmodel⟩ | ⟨herror, -⟩
  · obtain ⟨rfl, rfl⟩ := Prod.mk.inj (Except.ok.inj (hr.symm.trans hr₁))
    have hcount := hleast rfl
    refine ⟨s, s', h, hzero, hr, by omega, hlevel, ?_⟩
    rw [Option.eq_none_iff_forall_not_mem]
    exact fun m hm => absurd (hmodel.1 ⟨m, hm⟩) (by simp)
  · exact absurd (hr.symm.trans herror) (by simp)

/-- After that conflict the largest limit cannot be added to the number of conflicts. -/
theorem budget_overflows : ∃ s : Solver,
    Through Config.plain [.newVars 3, .addClause [-1, -2, 3], .addClause [-1, -2, -3],
      .limitConflicts (some 1), .solve 3 [1, 2], .limitConflicts (some 0xFFFFFFFFFFFFFFFF)] s ∧
    s.timeLimit = none ∧ s.conflictLimit = some 0xFFFFFFFFFFFFFFFF ∧
    ∀ fuel, s.solve fuel [] = .error .additionOverflow := by
  obtain ⟨s, s', h, haccount, -, hr, hopen, hone, hvars⟩ := exists_exhausted
  have htime : s'.timeLimit = none :=
    (solve_retains hr).1.time.trans (congrArg Account.timeLimit haccount)
  have h₁ := h.call (c := .solve 3 [1, 2]) trivial (bind_eq_ok_iff.2 ⟨_, hr, rfl⟩) hvars
  have h₂ := h₁.call (c := .limitConflicts (some 0xFFFFFFFFFFFFFFFF)) trivial rfl hvars
  refine ⟨_, h₂, htime, rfl, fun fuel => solve_of_limit_le hopen htime rfl (by simp [InRange]) ?_⟩
  change Word.limit ≤ s'.stats.conflicts + 0xFFFFFFFFFFFFFFFF
  rw [hone]
  decide

end Reachable
end Cdcl
