import Cdcl.Proofs.Solver.Learning

/-!
# Steps without a conflict

Once nothing is left to propagate, a step records and simplifies at level 0 (`settle`), and then
starts over or thins out the learnt clauses (`thin`) and chooses (`onFixpoint_eq`); where it chooses
is where it `Arrives`. Neither `settle` nor `thin` changes what is assigned. What holds of a search
whenever a step begins is shown of all its steps at once (`run_induction`).
-/

namespace Cdcl.Solver
set_option autoImplicit false

variable {s s' : Solver} {F : Formula} {A : List Literal} {b : Budget} {r : Round}

/-- What a step does first at level 0. -/
def settle (s : Solver) : Except Fault Solver :=
  if s.trail.level = 0 then s.recordRoot >>= simplify else .ok s

/-- What a step does before it chooses. -/
def thin (s : Solver) : Except Fault Solver := if s.hasTooManyLearnts then s.reduce else .ok s

theorem onFixpoint_eq : onFixpoint b A r s =
    s.settle >>= fun s => if r.isOver then restart b s else s.thin >>= choose A r := by
  have hthin : ∀ s : Solver, (if r.isOver then restart b s
      else do
        let s ← if s.hasTooManyLearnts then s.reduce else .ok s
        choose A r s) = if r.isOver then restart b s else s.thin >>= choose A r := by
    intro s
    unfold thin
    split
    · rfl
    · split <;> rfl
  unfold onFixpoint settle
  by_cases hlev : s.trail.level = 0
  · rw [if_pos hlev, if_pos hlev, bind_assoc]
    exact bind_congr fun s₁ => bind_congr fun s₂ => hthin s₂
  · rw [if_neg hlev, if_neg hlev]
    exact hthin s

/-- Without learnt clauses there is nothing to thin out. -/
theorem thin_of_nil (h : s.learnts = []) : ∃ stats journal, s.thin = .ok { s with stats, journal } := by
  unfold Solver.thin
  split
  · unfold Solver.reduce
    rw [h, show entriesOf s.store [] = .ok [] from rfl]
    dsimp only [bind, Except.bind]
    rw [List.mergeSort_nil]
    exact ⟨_, _, rfl⟩
  · exact ⟨s.stats, s.journal, rfl⟩

/-- A round arrives at a decision: nothing is left to propagate, the round is not over, and
constraints that are not needed any more are removed. -/
def Arrives (r : Round) (s t : Solver) : Prop :=
  ∃ s₁ s₂, s.propagate = .ok (none, s₁) ∧ s₁.settle = .ok s₂ ∧ r.isOver = false ∧ s₂.thin = .ok t

theorem Arrives.step_eq {t : Solver} (h : Arrives r s t) : step b A r s = choose A r t := by
  obtain ⟨s₁, s₂, hs₁, hs₂, hover, ht⟩ := h
  unfold Solver.step
  rw [hs₁]
  change onFixpoint b A r s₁ = _
  rw [onFixpoint_eq, hs₂]
  change (if r.isOver = true then _ else _) = _
  rw [if_neg (by simp [hover]), ht]
  rfl

/-- Without a conflict, a restart and learnt clauses a round settles and arrives at a decision. -/
theorem arrives_of_nil {s₁ s₂ : Solver} (hs₁ : s.propagate = .ok (none, s₁))
    (hs₂ : s₁.settle = .ok s₂) (hover : r.isOver = false) (hnil : s₂.learnts = []) :
    ∃ stats journal, Arrives r s { s₂ with stats, journal } := by
  obtain ⟨stats, journal, hthin⟩ := thin_of_nil hnil
  exact ⟨stats, journal, s₁, s₂, hs₁, hs₂, hover, hthin⟩

theorem Sane.settle (h : s.Sane F) (hr : s.settle = .ok s') :
    s'.Sane F ∧ s.trail.Forgets s'.trail := by
  unfold Solver.settle at hr
  split at hr
  · next hlev =>
    obtain ⟨s₁, hs₁, hr⟩ := bind_eq_ok_iff.1 hr
    obtain ⟨h₁, hlogs⟩ := h.keeps.recordRoot h.ready.sound hlev hs₁
    have hready₁ : s₁.kernel.Ready := hlogs.kernel ▸ h.ready
    have hl₁ : s₁.store.Lists s₁.learnts := by
      rw [hlogs.store, hlogs.learnts]
      exact h.lists
    obtain ⟨h', hk', hl', hforgets⟩ := h₁.simplify hready₁ hl₁ hr
    rw [hlogs.trail] at hforgets
    have hready : s'.kernel.Ready := by
      change s'.kernel.Firm (s'.trail.level + 1)
      rw [hforgets.level, ← hlogs.trail]
      exact hk'
    exact ⟨⟨hready, h', hl'⟩, hforgets⟩
  · obtain rfl := Except.ok.inj hr
    exact ⟨h, .refl _⟩

theorem Sane.thin (h : s.Sane F) (hr : s.thin = .ok s') : s'.Sane F ∧ s'.trail = s.trail := by
  unfold Solver.thin at hr
  split at hr
  · obtain ⟨h', hk', hl', htrail, -⟩ := h.keeps.reduce h.ready h.lists hr
    have hready : s'.kernel.Ready := by
      change s'.kernel.Firm (s'.trail.level + 1)
      rw [htrail]
      exact hk'
    exact ⟨⟨hready, h', hl'⟩, htrail⟩
  · obtain rfl := Except.ok.inj hr
    exact ⟨h, rfl⟩

/-! ## Runs -/

/-- What holds when a search starts and is kept by the steps that go on still holds before the last
step, or once the fuel is used up. -/
theorem run_induction {P : Round → Solver → Prop} {Q : Verdict → Solver → Prop} {fuel : Nat}
    {v : Verdict} (hr : run b A fuel r s = .ok (v, s')) (h : P r s)
    (hgoOn : ∀ {r s r' s'}, P r s → step b A r s = .ok (.goOn r', s') → P r' s')
    (hfinish : ∀ {r s v s'}, P r s → step b A r s = .ok (.finish v, s') → Q v s')
    (hstop : ∀ {r s}, P r s → Q .unfinished s) : Q v s' := by
  induction fuel generalizing s r with
  | zero =>
    obtain ⟨rfl, rfl⟩ := Prod.mk.inj (Except.ok.inj hr)
    exact hstop h
  | succ fuel ih =>
    obtain ⟨⟨out, s₁⟩, hs₁, hr⟩ := bind_eq_ok_iff.1 hr
    cases out with
    | finish v₁ =>
      obtain ⟨rfl, rfl⟩ := Prod.mk.inj (Except.ok.inj hr)
      exact hfinish h hs₁
    | goOn r₁ => exact ih hr (hgoOn h hs₁)

end Cdcl.Solver
