import Cdcl.Proofs.Solver.Teaching

/-!
# No variable is lost

A search assigns most variables without asking the order, and the order drops assigned variables only
when it comes across them. Between two calls on an open formula the order was told of all variables
(`Offering`), between two rounds as well (`Seeking`), and it is told of whatever is unassigned again.
So it is complete whenever a round arrives at a decision: by activity it queues every unassigned
variable, and at random it lists every variable once. Then it picks none exactly on a full trail,
whatever the activities and the random numbers are, and a search is satisfied only by a full trail
(`Reached.order_complete`).
-/

namespace Cdcl
set_option autoImplicit false

/-- Calls lead from a new solver to this one, and there are literals for all of its variables all
along. -/
inductive Reached (config : Config) : Solver → Prop where
  | create {s : Solver} (h : Solver.create config = .ok s) : Reached config s
  | call {s s' : Solver} {c : Call} {r : Reply} (h : Reached config s) (hc : c.Representable)
      (hr : s.perform c = .ok (r, s')) (hsized : s'.Sized) : Reached config s'

theorem Reachable.reached {config : Config} {s : Solver} (h : Reachable config s) :
    Reached config s := by
  induction h with
  | create h => exact .create h
  | call _ hc hr hvars ih => exact ih.call hc hr (.of_lt hvars)

namespace Solver

variable {s s' t : Solver} {F : Formula} {d : Demand} {A ls : List Literal} {b : Budget}
  {r r₀ : Round} {out : Outcome} {v : Verdict} {fuel count degree : Nat} {raws : List Int} {a : Added}
  {c : Call} {reply : Reply}

/-! ## Between calls -/

/-- The solver is idle and its order was told of all variables, or the formula is refuted. -/
def Offering (s : Solver) : Prop :=
  (∃ F, s.Idle F ∧ s.order.Fits s.numVars) ∨ ∃ F, s.Refuted F

theorem fits_newVars (h : s.order.Fits s.numVars) (hr : s.newVars count = .ok s') :
    s'.order.Fits s'.numVars := by
  have hnum := numVars_newVars hr
  obtain ⟨⟨first, k⟩, hk, hr⟩ := bind_eq_ok_iff.1 hr
  obtain ⟨rfl, t, w, ht, -, rfl⟩ := Kernel.newVars_eq_ok hk
  dsimp only at hr
  by_cases hcount : count = 0
  · rw [if_pos hcount] at hr
    obtain rfl := Except.ok.inj hr
    rw [hnum, hcount]
    exact h
  · rw [if_neg hcount] at hr
    obtain ⟨analyzer, -, hr⟩ := bind_eq_ok_iff.1 hr
    obtain ⟨s₁, hs₁, hr⟩ := bind_eq_ok_iff.1 hr
    obtain ⟨o, ho, hr⟩ := bind_eq_ok_iff.1 hr
    obtain rfl := Except.ok.inj hr
    have hnum₁ : s₁.numVars = s.numVars + count := hnum
    have hlogs := (certify_eq_ok hs₁).1
    rw [hnum₁, show s.kernel.trail.vars = s.numVars from rfl, varsFrom_eq, hlogs.order] at ho
    change o.Fits s₁.numVars
    rw [hnum₁]
    exact h.addVars ho

theorem Takes.offering (h : s.Takes s' F d a) (hs : s.Idle F) (hfits : s'.order.Fits s'.numVars) :
    s'.Offering := by
  match a, h with
  | .ok what, h => exact Or.inl ⟨_, h, hfits⟩
  | .error (.contradiction cause), h => exact Or.inr ⟨_, h⟩
  | .error .certificateUnsupported, h =>
    have hsame : s' = s := h
    exact Or.inl ⟨F, hsame ▸ hs, hfits⟩

theorem shape_solve (hr : s.solve fuel raws = .ok (v, s')) : s'.order.shape = s.order.shape := by
  obtain ⟨-, -, rfl⟩ | ⟨-, ls, b, interval, restarts, s₁, s₂, -, -, -, hs₁, hs₂, rfl⟩ :=
    solve_cases hr
  · rfl
  · have h₁ := (shape_of_outline (outline_backtrack hs₂)).trans (shape_run hs₁)
    exact h₁

theorem shape_enableCertificate (hr : s.enableCertificate = .ok s') :
    s'.order.shape = s.order.shape := by
  obtain ⟨_, -, hr⟩ := bind_eq_ok_iff.1 hr
  split at hr
  · obtain rfl := Except.ok.inj hr
    rfl
  · obtain ⟨c, -, hr⟩ := bind_eq_ok_iff.1 hr
    obtain rfl := Except.ok.inj hr
    rfl

theorem Idle.offering_perform (h : s.Idle F) (hfits : s.order.Fits s.numVars) (hsized : s.Sized)
    (hc : c.Representable) (hr : s.perform c = .ok (reply, s')) : s'.Offering := by
  have hkept : ∀ {t : Solver}, t.numVars = s.numVars → t.order.shape = s.order.shape →
      t.order.Fits t.numVars := fun hnum hshape => hnum ▸ hfits.of_shape hshape
  cases performs_of_eq_ok hr with
  | newVars hr => exact Or.inl ⟨F, (h.newVars hr).1, fits_newVars hfits hr⟩
  | addClause hr =>
    obtain ⟨hnum, htakes⟩ := h.addClause hsized hr
    exact htakes.offering h (hkept hnum (shape_of_outline (outline_addClause hr)))
  | @addAtLeast _ degree _ _ hr =>
    by_cases hdegree : degree < Word.addressable
    · obtain ⟨hnum, htakes⟩ := h.addAtLeast_counted hsized hdegree hr
      exact htakes.offering h (hkept hnum (shape_of_outline (outline_addAtLeast hr)))
    · obtain rfl := h.addAtLeast_of_large (Nat.not_lt.1 hdegree) hc.2 hr
      exact Or.inl ⟨F, h, hfits⟩
  | solve hr =>
    obtain ⟨hnum, hlevel, hends⟩ := h.solve hsized.signed hr
    have hfits' := hkept hnum (shape_solve hr)
    rcases hends.leaves hlevel with ⟨hidle, -⟩ | ⟨hrefuted, -⟩
    · exact Or.inl ⟨F, hidle, hfits'⟩
    · exact Or.inr ⟨F, hrefuted⟩
  | limitTime limit => exact Or.inl ⟨F, h.paced (p := ⟨limit, s.conflictLimit, s.restarts⟩), hfits⟩
  | limitConflicts limit => exact Or.inl ⟨F, h.paced (p := ⟨s.timeLimit, limit, s.restarts⟩), hfits⟩
  | enableCertificate hr =>
    obtain ⟨hidle, hnum⟩ := h.enableCertificate hr
    exact Or.inl ⟨F, hidle, hkept hnum (shape_enableCertificate hr)⟩

theorem Offering.perform (h : s.Offering) (hsized : s.Sized) (hc : c.Representable)
    (hr : s.perform c = .ok (reply, s')) : s'.Offering := by
  obtain ⟨F, hidle, hfits⟩ | ⟨F, hrefuted⟩ := h
  · exact hidle.offering_perform hfits hsized hc hr
  · exact Or.inr ⟨_, (hrefuted.perform_eq_ok hr).1⟩

theorem Offering.idle (h : s.Offering) (hopen : s.refuted = false) :
    ∃ F, s.Idle F ∧ s.order.Fits s.numVars := by
  obtain hidle | ⟨F, hrefuted⟩ := h
  · exact hidle
  · exact absurd (hopen.symm.trans hrefuted.refuted) (by simp)

theorem create_offering {config : Config} (h : create config = .ok s) : s.Offering := by
  obtain ⟨hidle, hnum⟩ := create_eq_ok h
  refine Or.inl ⟨[], hidle, ?_⟩
  rw [hnum]
  obtain ⟨o, ho, h⟩ := bind_eq_ok_iff.1 h
  obtain ⟨restarts, -, h⟩ := bind_eq_ok_iff.1 h
  obtain rfl := Except.ok.inj h
  exact Order.fits_ofPolicy ho

/-! ## Between rounds -/

/-- What holds between two rounds of a search under assumptions, for as many variables as have
literals. -/
structure Seeking (s : Solver) (F : Formula) (A : List Literal) : Prop where
  sane : s.Sane F
  fits : s.order.Fits s.numVars
  signed : s.numVars < Var.signedLimit
  assumes : s.trail.Assumes A
  names : ∀ l ∈ A, s.trail.Names l

theorem Seeking.step (h : s.Seeking F A) {r' : Round} (hr : step b A r s = .ok (.goOn r', s')) :
    s'.Seeking F A := by
  obtain ⟨hnum, hsane, hA⟩ := step_eq_ok h.sane h.signed h.assumes h.names hr
  exact ⟨hsane, hnum ▸ h.fits.of_shape (shape_step hr), hnum ▸ h.signed, hA, fun l hl =>
    ⟨(h.names l hl).1, Nat.le_trans (h.names l hl).2 (Nat.le_of_eq hnum.symm)⟩⟩

theorem Rounds.seeking {s₀ : Solver} (h : Rounds b A r₀ s₀ r s) (hs : s₀.Seeking F A) :
    s.Seeking F A := by
  induction h with
  | start => exact hs
  | goOn _ hr ih => exact ih.step hr

theorem Idle.seeking {restarts : Restart} (h : s.Idle F) (hfits : s.order.Fits s.numVars)
    (hsigned : s.numVars < Var.signedLimit) (hls : s.literals raws = .ok ls) :
    (s.atStart ls.length restarts).Seeking F ls where
  sane := h.toSane.atStart ls.length restarts
  fits := hfits
  signed := hsigned
  assumes := Trail.assumes_of_level_zero h.ready.sound.trail h.level
  names := (literals_eq_ok hsigned hls).2

/-! ## Decisions -/

/-- A search is only satisfied by a decision that finds nothing to pick. -/
theorem arrives_of_satisfiable (hr : Solver.step b A r s = .ok (.finish .satisfiable, s')) :
    ∃ t, Arrives r s t ∧ choose A r t = .ok (.finish .satisfiable, s') := by
  obtain ⟨⟨conflict, s₁⟩, hs₁, hr⟩ := bind_eq_ok_iff.1 hr
  cases conflict with
  | some ref =>
    obtain ⟨hadvances, hmore⟩ := onConflict_advances hr
    have hsame : s'.stats.conflicts = s₁.stats.conflicts := hadvances.of_satisfiable.2
    omega
  | none =>
    change onFixpoint b A r s₁ = _ at hr
    rw [onFixpoint_eq] at hr
    obtain ⟨s₂, hs₂, hr⟩ := bind_eq_ok_iff.1 hr
    by_cases hover : r.isOver = true
    · rw [if_pos hover] at hr
      have hopen := (restart_advances hover hr).of_satisfiable.1
      exact absurd (hover.symm.trans hopen) (by simp)
    · rw [if_neg hover] at hr
      obtain ⟨t, ht, hr⟩ := bind_eq_ok_iff.1 hr
      exact ⟨t, ⟨s₁, s₂, hs₁, hs₂, by simpa using hover, ht⟩, hr⟩

theorem choose_satisfiable (hr : choose A r s = .ok (.finish .satisfiable, s')) :
    ∃ order, s.order.select s.trail = .ok (none, order) ∧ s'.trail = s.trail := by
  unfold choose at hr
  split at hr
  · obtain ⟨⟨picked, order⟩, hselect, hr⟩ := bind_eq_ok_iff.1 hr
    cases picked with
    | none =>
      obtain ⟨-, rfl⟩ := Prod.mk.inj (Except.ok.inj hr)
      exact ⟨order, hselect, rfl⟩
    | some l =>
      obtain ⟨t, -, hr⟩ := bind_eq_ok_iff.1 hr
      exact absurd (Prod.mk.inj (Except.ok.inj hr)).1 (by simp)
  · obtain ⟨sat, -, hr⟩ := bind_eq_ok_iff.1 hr
    split at hr
    · exact absurd (Prod.mk.inj (Except.ok.inj hr)).1 (by simp)
    · obtain ⟨fals, -, hr⟩ := bind_eq_ok_iff.1 hr
      split at hr
      · exact absurd (Prod.mk.inj (Except.ok.inj hr)).1 (by simp)
      · obtain ⟨t, -, hr⟩ := bind_eq_ok_iff.1 hr
        exact absurd (Prod.mk.inj (Except.ok.inj hr)).1 (by simp)

/-- A decision leaves the search where it was when the round began, but for what was propagated. -/
theorem Seeking.arrives (h : s.Seeking F A) (ht : Arrives r s t) :
    t.Sane F ∧ t.order.Fits t.trail.vars ∧ t.trail.vars < Var.signedLimit := by
  obtain ⟨s₁, s₂, hs₁, hs₂, -, ht⟩ := ht
  obtain ⟨hkeeps₁, hends, hlists₁, hext⟩ := h.sane.propagate hs₁
  have hsane₁ : s₁.Sane F := ⟨hends.1, hkeeps₁, hlists₁⟩
  obtain ⟨hsane₂, hforgets⟩ := hsane₁.settle hs₂
  obtain ⟨hsane, htrail⟩ := hsane₂.thin ht
  have hvars : t.trail.vars = s.numVars :=
    (congrArg Trail.vars htrail).trans (hforgets.vars.trans hext.vars)
  have hshape : t.order.shape = s.order.shape := shape_of_outline
    ((outline_thin ht).trans ((outline_settle hs₂).trans (outline_propagate hs₁)))
  exact ⟨hsane, hvars ▸ h.fits.of_shape hshape, hvars ▸ h.signed⟩

theorem Seeking.full_of_step (h : s.Seeking F A)
    (hr : Solver.step b A r s = .ok (.finish .satisfiable, s')) :
    s'.trail.Full ∧ s'.trail.literals.size = s'.numVars := by
  obtain ⟨t, ht, hr⟩ := arrives_of_satisfiable hr
  obtain ⟨o, hselect, htrail⟩ := choose_satisfiable hr
  obtain ⟨hsane, -, hsigned⟩ := h.arrives ht
  have hfull : t.trail.Full := (Order.select_eq_ok hsane.keeps.covers hsigned hselect).1
  unfold Solver.numVars
  rw [htrail]
  exact ⟨hfull, hsane.ready.sound.trail.full_iff.1 hfull⟩

theorem Seeking.full_of_run (h : s.Seeking F A) (hr : run b A fuel r s = .ok (.satisfiable, s')) :
    s'.trail.Full ∧ s'.trail.literals.size = s'.numVars :=
  run_induction (P := fun _ t => t.Seeking F A)
    (Q := fun v t => v = .satisfiable → t.trail.Full ∧ t.trail.literals.size = t.numVars) hr h
    (fun h hs₁ => h.step hs₁) (fun h hs₁ hv => h.full_of_step (hv ▸ hs₁)) (fun _ hv => by simp at hv)
    rfl

end Solver

open Solver

variable {config : Config} {s : Solver}

theorem Reached.offering (h : Reached config s) : s.Offering ∧ s.Sized := by
  induction h with
  | create h => exact ⟨create_offering h, .of_lt ((create_eq_ok h).2 ▸ by decide)⟩
  | call _ hc hr hsized ih => exact ⟨ih.1.perform ih.2 hc hr, hsized⟩

/-- Whenever a search is about to decide, the order is complete. All orders like it pick none exactly
if every variable is assigned, and otherwise a literal of an unassigned variable. A search is satisfied
only by a full trail. -/
theorem Reached.order_complete (h : Reached config s) (hopen : s.refuted = false) {raws : List Int}
    {ls : List Literal} (hls : s.literals raws = .ok ls) {b : Budget} {r₀ : Round}
    {restarts : Restart} :
    (∀ r s₁ t, Rounds b ls r₀ (s.atStart ls.length restarts) r s₁ → Arrives r s₁ t →
      step b ls r s₁ = choose ls r t ∧ t.order.Complete t.trail ∧ t.order.Resembles t.order ∧
      ∀ o, t.order.Resembles o → ∃ picked o', o.select t.trail = .ok (picked, o') ∧
        (picked = none ↔ t.trail.Full) ∧
        ∀ l, picked = some l → t.trail.Names l ∧ t.trail.mark? l.var = none) ∧
    ∀ fuel s', run b ls fuel r₀ (s.atStart ls.length restarts) = .ok (.satisfiable, s') →
      s'.trail.Full ∧ s'.trail.literals.size = s'.numVars := by
  obtain ⟨hoffering, hsized⟩ := h.offering
  obtain ⟨F, hidle, hfits⟩ := hoffering.idle hopen
  have hstart : (s.atStart ls.length restarts).Seeking F ls :=
    hidle.seeking hfits hsized.signed hls
  refine ⟨fun r s₁ t hrounds ht => ?_, fun fuel s' hr => hstart.full_of_run hr⟩
  obtain ⟨hsane, hfits, hsigned⟩ := (hrounds.seeking hstart).arrives ht
  have hcovers := hsane.keeps.covers
  exact ⟨ht.step_eq, hfits.complete hcovers, hcovers.resembles, fun o ho =>
    ho.select hcovers hfits hsane.ready.sound.trail hsigned⟩

/-- An assumption was made and forced a second variable, so the order picks the third one. -/
theorem Reached.order_complete_assumption : ∃ s s₁ t : Solver, Reached Config.plain s ∧
    s.refuted = false ∧
    Rounds ⟨none, none⟩ [⟨⟨1⟩, false⟩] ⟨none, 0⟩ (s.atStart 1 .never) ⟨none, 0⟩ s₁ ∧
    Arrives ⟨none, 0⟩ s₁ t ∧ t.trail.literals = #[⟨⟨1⟩, false⟩, ⟨⟨2⟩, false⟩] ∧
    t.order.Complete t.trail ∧
    ∃ l o, t.order.select t.trail = .ok (some l, o) ∧ t.trail.mark? l.var = none := by
  have h₀ : Reachable Config.plain _ := .create (show Solver.create Config.plain = .ok _ from rfl)
  have h₁ := h₀.call (c := .newVars 3) trivial rfl (by decide)
  have h₂ := h₁.call (c := .addClause [-1, 2]) trivial
    (Solver.perform_addClause_of_empty rfl rfl rfl rfl rfl rfl rfl) (by decide)
  obtain ⟨s, hs, hopen, hls, hbare⟩ : ∃ s : Solver, Reachable Config.plain s ∧ s.refuted = false ∧
      s.literals [1] = .ok [⟨⟨1⟩, false⟩] ∧ s.Bare (.implication [none, none, none, none] [] [] 0)
        ⟨⟨#[false, false, false, false]⟩, []⟩ :=
    ⟨_, h₂, rfl, rfl, ⟨⟨rfl, rfl⟩, rfl, rfl, rfl⟩⟩
  have hstart : Rounds ⟨none, none⟩ [⟨⟨1⟩, false⟩] ⟨none, 0⟩ (s.atStart 1 .never) ⟨none, 0⟩ _ :=
    .start
  obtain ⟨s₁, hrounds, h₁⟩ :=
    hstart.decide hbare.atStart rfl rfl (fun _ => rfl) rfl rfl rfl rfl
  -- the assumption makes the first variable true, and the clause the second one
  obtain ⟨stats, journal, harrives⟩ := h₁.arrives (r := ⟨none, 0⟩) rfl
    (show Kernel.propagate _ = .ok (none, .implied) from rfl)
    (fun hzero => absurd hzero (by decide))
  obtain ⟨-, hcomplete, hresembles, hselect⟩ :=
    (Reached.order_complete hs.reached hopen hls).1 _ _ _ hrounds harrives
  obtain ⟨picked, o, hpicked, hfull, hfree⟩ := hselect _ hresembles
  refine ⟨s, s₁, _, hs.reached, hopen, hrounds, harrives, rfl, hcomplete, ?_⟩
  cases picked with
  | none => exact absurd rfl (hfull.1 rfl ⟨3⟩ ⟨by decide, Nat.le_refl 3⟩)
  | some l => exact ⟨l, o, hpicked, (hfree l rfl).2⟩

end Cdcl
