import Cdcl.Proofs.Progress.Refutation
import Cdcl.Proofs.Progress.Session
import Cdcl.Proofs.Solver.Meaning
import Cdcl.Proofs.Solver.Pace

/-!
# Reachable solvers

A solver is `Reachable` under a configuration if calls that had a result lead to it from a new one:
any calls in any order, with limits and restarts, with a certificate or without, and whatever they
returned. What all such solvers have in common is that they stand (`Reachable.standing`): either the
parts fit a formula and nothing is missing for the next step of a search, or the formula is refuted
and its record complete. `Searching` is the same for the states of a search, and every step keeps it
(`Searching.step`).
-/

namespace Cdcl
set_option autoImplicit false

/-- Degrees are words, and the literals of an at-least constraint fit into memory. -/
def Call.Representable : Call → Prop
  | .addAtLeast raws degree => raws.length < Word.addressable ∧ degree < Word.limit
  | _ => True

instance : (c : Call) → Decidable c.Representable
  | .addAtLeast raws degree =>
    inferInstanceAs (Decidable (raws.length < Word.addressable ∧ degree < Word.limit))
  | .newVars _ | .addClause _ | .solve _ _ | .limitTime _ | .limitConflicts _
  | .enableCertificate => isTrue trivial

theorem Call.Proper.representable {vars : Nat} {c : Call} (h : c.Proper vars) :
    c.Representable := by
  cases c with
  | addAtLeast raws degree => exact ⟨h.2.2, Nat.lt_trans h.2.1 (by decide)⟩
  | _ => trivial

/-- Calls lead from a new solver to this one, with fewer than 2³⁰ variables all along. -/
inductive Reachable (config : Config) : Solver → Prop where
  | create {s : Solver} (h : Solver.create config = .ok s) : Reachable config s
  | call {s s' : Solver} {c : Call} {r : Reply} (h : Reachable config s) (hc : c.Representable)
      (hr : s.perform c = .ok (r, s')) (hvars : s'.numVars < Event.varLimit) : Reachable config s'

namespace Solver

variable {s s' : Solver} {F : Formula} {d : Demand} {A : List Literal} {b : Budget} {r : Round}
  {out : Outcome} {v : Verdict} {n fuel count degree : Nat} {raws : List Int} {a : Added} {c : Call}
  {reply : Reply} {p : Pace}

/-- Apart from limits and restarts nothing is missing for the next step. -/
def Equipped (s : Solver) : Prop := (s.paced .free).Supplied 0

/-- The parts fit a formula, or the formula is refuted and its record complete. -/
def Stood (s : Solver) : Prop :=
  (∃ F, s.Sane F ∧ s.Equipped) ∨ ((∃ F, s.Refuted F) ∧ s.Documented)

/-- What holds of a solver that is not in the middle of a step. -/
structure Standing (s : Solver) : Prop where
  vars : s.numVars < Event.varLimit
  stood : s.Stood

/-- What holds between two steps of a search under assumptions. -/
structure Searching (s : Solver) (F : Formula) (A : List Literal) : Prop where
  sane : s.Sane F
  equipped : s.Equipped
  vars : s.numVars < Event.varLimit
  assumes : s.trail.Assumes A
  names : ∀ l ∈ A, s.trail.Names l

/-! ## Other paces -/

theorem Sane.paced (h : s.Sane F) : (s.paced p).Sane F :=
  ⟨h.ready, h.keeps.of_eq rfl rfl rfl rfl rfl rfl rfl h.keeps.calm, h.lists⟩

theorem Idle.paced (h : s.Idle F) : (s.paced p).Idle F := ⟨h.toSane.paced, h.level⟩

theorem Documented.of_paced (h : (s.paced p).Documented) : s.Documented := h.of_eq rfl rfl

/-- Without restarts no interval is ever missing. -/
theorem Equipped.supplied (h : s.Equipped) : (s.paced .free).Supplied n :=
  ⟨{ h.toAmple with restarts := Restart.fits_never n }, h.complete⟩

theorem Supplied.equipped (h : s.Supplied n) : s.Equipped :=
  ⟨⟨h.valid, h.watches, h.analyzer, h.order, h.decided, rfl, rfl, Restart.fits_never 0⟩, h.complete⟩

theorem Equipped.of_eq (h : s.Equipped) (hkernel : s'.kernel = s.kernel)
    (hanalyzer : s'.analyzer = s.analyzer) (horder : s'.order = s.order) (hcertificate : s'.certificate = s.certificate)
    (hrefuted : s'.refuted = s.refuted) : s'.Equipped :=
  Supplied.of_eq h hkernel hanalyzer horder rfl rfl rfl hcertificate hrefuted

theorem Idle.documented_of_equipped (h : s.Idle F) (he : s.Equipped) : s.Documented :=
  (h.paced.documented he).of_paced

/-! ## Searches -/

/-- The rounds that a search goes through: it starts with one, and goes on to the next as long as no
step ends it. -/
inductive Rounds (b : Budget) (A : List Literal) (r₀ : Round) (s₀ : Solver) : Round → Solver → Prop
  | start : Rounds b A r₀ s₀ r₀ s₀
  | goOn {r r' : Round} {s s' : Solver} (h : Rounds b A r₀ s₀ r s)
      (hr : Solver.step b A r s = .ok (.goOn r', s')) : Rounds b A r₀ s₀ r' s'

/-- Each step keeps the state of a search, or ends the search. -/
theorem Searching.step (h : s.Searching F A) (hr : step b A r s = .ok (out, s')) :
    s'.Standing ∧ ∀ r', out = .goOn r' → s'.Searching F A := by
  have hsigned : s.numVars < Var.signedLimit := Nat.lt_trans h.vars (by decide)
  obtain ⟨hnum, hleads⟩ := step_eq_ok h.sane hsigned h.assumes h.names hr
  have hvars : s'.numVars < Event.varLimit := hnum ▸ h.vars
  obtain ⟨out', hfree⟩ := step_free hr
  have hequipped : s'.Equipped := by
    obtain ⟨_, _, hsame, h'⟩ := h.equipped.supplied.step h.sane.paced hsigned h.names b r
    obtain ⟨-, rfl⟩ := Prod.mk.inj (Except.ok.inj (hsame.symm.trans hfree))
    exact h'
  have hsane : s'.Sane F → s'.Standing := fun hs => ⟨hvars, Or.inl ⟨F, hs, hequipped⟩⟩
  have hrefuted : s'.Refuted F → s'.Standing := fun hs => ⟨hvars, Or.inr ⟨⟨F, hs⟩,
    (h.equipped.documented_of_step h.sane.paced hfree hs.refuted).of_paced⟩⟩
  cases out with
  | goOn r' =>
    have hnames : ∀ l ∈ A, s'.trail.Names l := fun l hl =>
      ⟨(h.names l hl).1, Nat.le_trans (h.names l hl).2 (Nat.le_of_eq hnum.symm)⟩
    exact ⟨hsane hleads.1, fun _ _ => ⟨hleads.1, hequipped, hvars, hleads.2, hnames⟩⟩
  | finish v =>
    refine ⟨?_, fun r' hgo => by simp at hgo⟩
    cases v with
    | satisfiable => exact hsane hleads.1
    | unsatisfiable =>
      rcases hleads with ⟨hs, -⟩ | ⟨hs, -⟩
      · exact hsane hs
      · exact hrefuted hs
    | timeout => exact hsane hleads
    | unfinished => exact hsane hleads

theorem Rounds.searching {r₀ : Round} {s₀ : Solver} (h : Rounds b A r₀ s₀ r s)
    (hs : s₀.Searching F A) : s.Searching F A := by
  induction h with
  | start => exact hs
  | goOn h hr ih => exact (ih.step hr).2 _ rfl

theorem Searching.run (h : s.Searching F A) (hr : run b A fuel r s = .ok (v, s')) :
    s'.Standing :=
  run_induction (P := fun _ t => t.Searching F A) (Q := fun _ t => t.Standing) hr h
    (fun h hs₁ => (h.step hs₁).2 _ rfl) (fun h hs₁ => (h.step hs₁).1)
    (fun h => ⟨h.vars, Or.inl ⟨F, h.sane, h.equipped⟩⟩)

/-- After a search the solver returns to level 0, where a refuted one already is. -/
theorem Standing.backtrack (h : s.Standing) (hr : s.backtrack 0 = .ok s') :
    s'.Standing ∧ s'.trail.level = 0 := by
  obtain ⟨o, -, rfl⟩ := backtrack_eq_ok hr
  have hlevel : (s.trail.undoTo 0).1.level = 0 := Trail.level_undoTo.trans (Nat.min_zero _)
  have hvars : (s.trail.undoTo 0).1.vars < Event.varLimit := Trail.vars_undoTo.symm ▸ h.vars
  refine ⟨⟨hvars, ?_⟩, hlevel⟩
  rcases h.stood with ⟨F, hs, he⟩ | ⟨⟨F, hs⟩, hdoc⟩
  · obtain ⟨hkeeps, hready, -, hstore, hlearnts, -⟩ :=
      hs.keeps.backtrack hs.ready (Nat.succ_pos _) hr
    obtain ⟨_, hsame, h'⟩ := Supplied.backtrack he 0
    rw [backtrack_paced, hr] at hsame
    obtain rfl := Except.ok.inj hsame
    refine Or.inl ⟨F, ⟨hready, hkeeps, ?_⟩, h'⟩
    rw [hstore, hlearnts]
    exact hs.lists
  · have hsame : s.trail.undoTo 0 = (s.trail, []) := Trail.undoTo_of_le (Nat.le_of_eq hdoc.level)
    exact Or.inr ⟨⟨F, hs.of_eq rfl rfl⟩, hdoc.of_eq (by rw [hsame]; rfl) rfl⟩

/-- A search with a result found the formula refuted, or it ran, and returned to level 0. -/
theorem solve_cases (hr : s.solve fuel raws = .ok (v, s')) :
    (s.refuted = true ∧ v = .unsatisfiable ∧
      s' = { s with model := none }.note .knownUnsatisfiable) ∨
    (s.refuted = false ∧ ∃ ls b interval restarts s₁ s₂, s.literals raws = .ok ls ∧
      s.budget = .ok b ∧ s.restarts.next = .ok (interval, restarts) ∧
      run b ls fuel { interval } (s.atStart ls.length restarts) = .ok (v, s₁) ∧
      s₁.backtrack 0 = .ok s₂ ∧ s' = (s₂.note (verdictNotice v)).note (.counted s₂.statistics)) := by
  rcases Bool.eq_false_or_eq_true s.refuted with hrefuted | hopen
  · rw [solve_eq_of_refuted hrefuted] at hr
    obtain ⟨rfl, rfl⟩ := Prod.mk.inj (Except.ok.inj hr)
    exact Or.inl ⟨hrefuted, rfl, rfl⟩
  · rw [solve_eq hopen] at hr
    obtain ⟨ls, hls, hr⟩ := bind_eq_ok_iff.1 hr
    obtain ⟨b, hb, hr⟩ := bind_eq_ok_iff.1 hr
    obtain ⟨⟨interval, restarts⟩, hnext, hr⟩ := bind_eq_ok_iff.1 hr
    obtain ⟨⟨v₁, s₁⟩, hs₁, hr⟩ := bind_eq_ok_iff.1 hr
    obtain ⟨s₂, hs₂, hr⟩ := bind_eq_ok_iff.1 hr
    obtain ⟨rfl, rfl⟩ := Prod.mk.inj (Except.ok.inj hr)
    exact Or.inr ⟨hopen, ls, b, interval, restarts, s₁, s₂, hls, hb, hnext, hs₁, hs₂, rfl⟩

theorem solve_precedes (hr : s.solve fuel raws = .ok (v, s')) :
    s.restarts.Precedes s'.restarts := by
  obtain ⟨-, -, rfl⟩ | ⟨-, ls, b, interval, restarts, s₁, s₂, -, -, hnext, hs₁, hs₂, rfl⟩ :=
    solve_cases hr
  · exact .of_eq rfl
  · have h₁ : restarts.Precedes s₁.restarts := run_precedes hs₁
    have h₂ : s₂.restarts = s₁.restarts := congrArg Account.intervals (account_backtrack hs₂)
    exact (Restart.Precedes.of_next hnext).trans (h₂ ▸ h₁)

theorem Idle.searching {ls : List Literal} (h : s.Idle F) (he : s.Equipped)
    (hvars : s.numVars < Event.varLimit) (hnames : ∀ l ∈ ls, s.trail.Names l) :
    s.Searching F ls where
  sane := h.toSane
  equipped := he
  vars := hvars
  assumes := Trail.assumes_of_level_zero h.ready.sound.trail h.level
  names := hnames

theorem Searching.atStart {restarts : Restart} (h : s.Searching F A) (assumed : Nat) :
    (s.atStart assumed restarts).Searching F A where
  sane := h.sane.atStart assumed restarts
  equipped := h.equipped.of_eq rfl rfl rfl rfl rfl
  vars := h.vars
  assumes := h.assumes
  names := h.names

theorem Standing.note {n : Notice} (h : s.Standing) (hn : n ≠ .rootConflict) :
    (s.note n).Standing := by
  refine ⟨h.vars, h.stood.imp ?_ ?_⟩
  · rintro ⟨F, hs, he⟩
    exact ⟨F, ⟨hs.ready, hs.keeps.note hn, hs.lists⟩, he.of_eq rfl rfl rfl rfl rfl⟩
  · rintro ⟨⟨F, hs⟩, hdoc⟩
    exact ⟨⟨F, hs.of_eq rfl rfl⟩, hdoc.of_eq rfl rfl⟩

/-! ## Calls -/

/-- Calls leave a refuted formula refuted and its record complete. -/
theorem Refuted.documented_perform (h : s.Refuted F) (hdoc : s.Documented)
    (hr : s.perform c = .ok (reply, s')) (hvars : s'.numVars < Event.varLimit) :
    s'.Documented := by
  cases performs_of_eq_ok hr with
  | newVars hr => exact hdoc.newVars (numVars_newVars hr ▸ hvars) hr
  | addClause hr =>
    obtain ⟨ls, -, hr⟩ := bind_eq_ok_iff.1 hr
    obtain ⟨rfl, -⟩ := h.addLiterals hr
    exact hdoc
  | addAtLeast hr =>
    obtain ⟨ls, -, hr⟩ := bind_eq_ok_iff.1 hr
    rw [if_pos h.refuted] at hr
    obtain ⟨-, rfl⟩ := Prod.mk.inj (Except.ok.inj hr)
    exact hdoc
  | solve hr =>
    rw [solve_eq_of_refuted h.refuted] at hr
    obtain ⟨-, rfl⟩ := Prod.mk.inj (Except.ok.inj hr)
    exact hdoc.of_eq rfl rfl
  | limitTime limit => exact hdoc.of_eq rfl rfl
  | limitConflicts limit => exact hdoc.of_eq rfl rfl
  | enableCertificate hr =>
    obtain ⟨_, hfresh, -⟩ := bind_eq_ok_iff.1 hr
    have hfresh := require_eq_ok_iff.1 hfresh
    simp [h.refuted] at hfresh

theorem Takes.standing (h : s.Takes s' F d a) (hs : s.Idle F) (he : s'.Equipped)
    (hdoc : s'.Documented) (hvars : s'.numVars < Event.varLimit) :
    s'.Standing ∧ s'.trail.level = 0 := by
  refine ⟨⟨hvars, ?_⟩, hdoc.level⟩
  match a, h with
  | .ok what, h => exact Or.inl ⟨_, Idle.toSane h, he⟩
  | .error (.contradiction cause), h => exact Or.inr ⟨⟨_, h⟩, hdoc⟩
  | .error .certificateUnsupported, h =>
    have hsame : s' = s := h
    exact Or.inl ⟨F, hsame ▸ hs.toSane, he⟩

theorem Idle.standing_addClause (h : s.Idle F) (he : s.Equipped)
    (hvars : s.numVars < Event.varLimit) (hr : s.addClause raws = .ok (a, s')) :
    s'.Standing ∧ s'.trail.level = 0 := by
  obtain ⟨hnum, htakes⟩ := h.addClause (.of_lt hvars) hr
  obtain ⟨ls, hls, hadd⟩ := bind_eq_ok_iff.1 hr
  obtain ⟨-, hnames⟩ := literals_eq_ok (Nat.lt_trans hvars (by decide)) hls
  have hfree : (s.paced .free).addLiterals ls = .ok (a, s'.paced .free) := by
    rw [addLiterals_paced, hadd]
    rfl
  obtain ⟨_, _, hsame, he'⟩ := Supplied.addLiterals he (fun _ => h.paced) (.of_lt hvars) hnames
  obtain ⟨-, rfl⟩ := Prod.mk.inj (Except.ok.inj (hsame.symm.trans hfree))
  exact htakes.standing h he'
    (Supplied.documented_of_addLiterals he h.paced (.of_lt hvars) hnames hfree).of_paced
    (hnum ▸ hvars)

/-- A degree that reads as a negative number adds nothing. -/
theorem Idle.addAtLeast_of_large (h : s.Idle F) (hlarge : Word.addressable ≤ degree)
    (hword : degree < Word.limit) (hr : s.addAtLeast raws degree = .ok (a, s')) : s' = s := by
  obtain ⟨ls, -, hr⟩ := bind_eq_ok_iff.1 hr
  rw [if_neg (by simp [h.keeps.undecided])] at hr
  split at hr
  · split at hr
    · exact (Prod.mk.inj (Except.ok.inj hr)).2.symm
    · exact absurd hlarge (by decide)
    · exact (Prod.mk.inj (Except.ok.inj hr)).2.symm
  · obtain ⟨form, hform, hr⟩ := bind_eq_ok_iff.1 hr
    obtain rfl := Intake.atLeast_eq_ok_of_large hlarge hword hform
    exact (Prod.mk.inj (Except.ok.inj hr)).2.symm

theorem Idle.standing_addAtLeast (h : s.Idle F) (he : s.Equipped)
    (hvars : s.numVars < Event.varLimit) (hlen : raws.length < Word.addressable)
    (hword : degree < Word.limit) (hr : s.addAtLeast raws degree = .ok (a, s')) :
    s'.Standing ∧ s'.trail.level = 0 := by
  have hsized : s.Sized := .of_lt hvars
  by_cases hdegree : degree < Word.addressable
  · obtain ⟨hnum, htakes⟩ := h.addAtLeast_counted hsized hdegree hr
    have hfree : (s.paced .free).addAtLeast raws degree = .ok (a, s'.paced .free) := by
      rw [addAtLeast_paced, hr]
      rfl
    obtain ⟨ls, hls, -⟩ := bind_eq_ok_iff.1 hr
    obtain ⟨_, _, hsame, he'⟩ := Supplied.addAtLeast he (fun _ => h.paced) (.of_lt hvars)
      (inRange_of_literals (s := s) hls) hdegree hlen
    obtain ⟨-, rfl⟩ := Prod.mk.inj (Except.ok.inj (hsame.symm.trans hfree))
    exact htakes.standing h he'
      (Supplied.documented_of_addAtLeast he h.paced (.of_lt hvars) hdegree hlen hfree).of_paced
      (hnum ▸ hvars)
  · obtain rfl := h.addAtLeast_of_large (Nat.not_lt.1 hdegree) hword hr
    exact ⟨⟨hvars, Or.inl ⟨F, h.toSane, he⟩⟩, h.level⟩

theorem Idle.standing_solve (h : s.Idle F) (he : s.Equipped) (hvars : s.numVars < Event.varLimit)
    (hr : s.solve fuel raws = .ok (v, s')) : s'.Standing ∧ s'.trail.level = 0 := by
  obtain ⟨hrefuted, -⟩ | ⟨-, ls, b, interval, restarts, s₁, s₂, hls, -, -, hs₁, hs₂, rfl⟩ :=
    solve_cases hr
  · exact absurd (h.keeps.undecided.symm.trans hrefuted) (by simp)
  obtain ⟨-, hnames⟩ := literals_eq_ok (Nat.lt_trans hvars (by decide)) hls
  obtain ⟨h₂, hlevel⟩ := (((h.searching he hvars hnames).atStart ls.length).run hs₁).backtrack hs₂
  have hnotice : verdictNotice v ≠ .rootConflict := by cases v <;> simp [verdictNotice]
  exact ⟨(h₂.note hnotice).note (by simp), hlevel⟩

theorem Idle.standing_enableCertificate (h : s.Idle F) (he : s.Equipped)
    (hvars : s.numVars < Event.varLimit) (hr : s.enableCertificate = .ok s') :
    s'.Standing ∧ s'.trail.level = 0 := by
  obtain ⟨hidle, hnum⟩ := h.enableCertificate hr
  refine ⟨⟨hnum ▸ hvars, Or.inl ⟨F, hidle.toSane, ?_⟩⟩, hidle.level⟩
  obtain ⟨_, hfresh, hr⟩ := bind_eq_ok_iff.1 hr
  have hfresh := require_eq_ok_iff.1 hfresh
  split at hr
  · obtain rfl := Except.ok.inj hr
    exact he
  · obtain ⟨c, hc, hr⟩ := bind_eq_ok_iff.1 hr
    obtain rfl := Except.ok.inj hr
    have hempty : s.trail.literals = #[] := by simp at hfresh; exact hfresh.1.2
    have hnone : ∀ v, s.trail.mark? v = none := by
      intro v
      by_contra hsome
      obtain ⟨m, hm⟩ := Option.ne_none_iff_exists'.1 hsome
      have hplaced := h.ready.sound.trail.placed hm
      rw [show s.kernel.trail.literals = #[] from hempty] at hplaced
      exact absurd hplaced (by simp)
    refine ⟨{ he.toAmple with }, fun _ d hd => ?_⟩
    obtain rfl := Option.some.inj hd
    exact Certificate.complete_growTo hvars hnone hc

theorem Idle.standing_perform (h : s.Idle F) (he : s.Equipped) (hvars : s.numVars < Event.varLimit)
    (hc : c.Representable) (hr : s.perform c = .ok (reply, s'))
    (hvars' : s'.numVars < Event.varLimit) : s'.Standing ∧ s'.trail.level = 0 := by
  cases performs_of_eq_ok hr with
  | @newVars count _ hr =>
    obtain ⟨hidle, hnum⟩ := h.newVars hr
    have hfree : (s.paced .free).newVars count = .ok (s'.paced .free) := by
      rw [newVars_paced, hr]
      rfl
    obtain ⟨_, hsame, he'⟩ : ∃ s', (s.paced .free).newVars count = .ok s' ∧ s'.Supplied 0 :=
      Supplied.newVars he (hnum ▸ hvars')
    obtain rfl := Except.ok.inj (hsame.symm.trans hfree)
    exact ⟨⟨hvars', Or.inl ⟨F, hidle.toSane, he'⟩⟩, hidle.level⟩
  | addClause hr => exact h.standing_addClause he hvars hr
  | addAtLeast hr => exact h.standing_addAtLeast he hvars hc.1 hc.2 hr
  | solve hr => exact h.standing_solve he hvars hr
  | limitTime limit =>
    exact ⟨⟨hvars, Or.inl ⟨F, (h.paced (p := ⟨limit, s.conflictLimit, s.restarts⟩)).toSane, he⟩⟩,
      h.level⟩
  | limitConflicts limit =>
    exact ⟨⟨hvars, Or.inl ⟨F, (h.paced (p := ⟨s.timeLimit, limit, s.restarts⟩)).toSane, he⟩⟩,
      h.level⟩
  | enableCertificate hr => exact h.standing_enableCertificate he hvars hr

/-- Every call keeps what holds between calls. -/
theorem Standing.perform (h : s.Standing) (hlevel : s.trail.level = 0) (hc : c.Representable)
    (hr : s.perform c = .ok (reply, s')) (hvars' : s'.numVars < Event.varLimit) :
    s'.Standing ∧ s'.trail.level = 0 := by
  rcases h.stood with ⟨F, hs, he⟩ | ⟨⟨F, hs⟩, hdoc⟩
  · exact Idle.standing_perform ⟨hs, hlevel⟩ he h.vars hc hr hvars'
  · have hdoc' := hs.documented_perform hdoc hr hvars'
    exact ⟨⟨hvars', Or.inr ⟨⟨_, (hs.perform_eq_ok hr).1⟩, hdoc'⟩⟩, hdoc'.level⟩

theorem perform_precedes (hr : s.perform c = .ok (reply, s')) :
    s.restarts.Precedes s'.restarts := by
  have hkept : s'.pace = s.pace → s.restarts.Precedes s'.restarts := fun h =>
    .of_eq (congrArg Pace.restarts h)
  cases performs_of_eq_ok hr with
  | newVars hr => exact hkept (pace_eq_of_map (newVars_paced (s := s)) hr)
  | addClause hr => exact hkept (pace_eq_of_map_snd (addClause_paced (s := s)) hr)
  | addAtLeast hr => exact hkept (pace_eq_of_map_snd (addAtLeast_paced (s := s)) hr)
  | solve hr => exact solve_precedes hr
  | limitTime limit => exact .of_eq rfl
  | limitConflicts limit => exact .of_eq rfl
  | enableCertificate hr => exact hkept (pace_eq_of_map (enableCertificate_paced (s := s)) hr)

/-- What stands at level 0 is idle, as long as the formula is not refuted. -/
theorem Standing.idle (h : s.Standing) (hlevel : s.trail.level = 0) (hopen : s.refuted = false) :
    ∃ F, s.Idle F ∧ s.Equipped := by
  rcases h.stood with ⟨F, hs, he⟩ | ⟨⟨F, hs⟩, -⟩
  · exact ⟨F, ⟨hs, hlevel⟩, he⟩
  · exact absurd (hopen.symm.trans hs.refuted) (by simp)

theorem create_standing {config : Config} (h : create config = .ok s) :
    s.Standing ∧ s.trail.level = 0 := by
  obtain ⟨hidle, hnum⟩ := create_eq_ok h
  have he : s.Equipped := (create_supplied (n := 0) h trivial).equipped
  exact ⟨⟨hnum ▸ (by decide), Or.inl ⟨[], hidle.toSane, he⟩⟩, hidle.level⟩

end Solver

variable {config : Config} {s : Solver}

/-- Between two calls every solver stands at level 0. -/
theorem Reachable.standing (h : Reachable config s) : s.Standing ∧ s.trail.level = 0 := by
  induction h with
  | create h => exact Solver.create_standing h
  | call h hc hr hvars ih => exact ih.1.perform ih.2 hc hr hvars

theorem Reachable.idle (h : Reachable config s) (hopen : s.refuted = false) :
    ∃ F, s.Idle F ∧ s.Equipped := h.standing.1.idle h.standing.2 hopen

/-- A call starts its search in a state from which it can go on. -/
theorem Reachable.searching {raws : List Int} {ls : List Literal} (h : Reachable config s)
    (hopen : s.refuted = false) (hls : s.literals raws = .ok ls) (restarts : Restart) :
    ∃ F, (s.atStart ls.length restarts).Searching F ls := by
  obtain ⟨F, hidle, he⟩ := h.idle hopen
  have hvars := h.standing.1.vars
  obtain ⟨-, hnames⟩ := Solver.literals_eq_ok (Nat.lt_trans hvars (by decide)) hls
  exact ⟨F, (hidle.searching he hvars hnames).atStart ls.length⟩

/-- Distinct literals fit into memory. -/
theorem Call.Admissible.representable {s' : Solver} {c : Call} {r : Reply} (hc : c.Admissible)
    (hr : s.perform c = .ok (r, s')) (hvars : s.numVars < Event.varLimit) : c.Representable := by
  cases c with
  | addAtLeast raws degree =>
    obtain ⟨_, hadd, -⟩ := bind_eq_ok_iff.1 hr
    obtain ⟨ls, hls, -⟩ := bind_eq_ok_iff.1 hadd
    have hle := (Solver.inRange_of_literals hls).length_le hc.1
    have hlimit : 2 * Event.varLimit + 1 < Word.addressable := by decide
    exact ⟨by omega, Nat.lt_trans hc.2 (by decide)⟩
  | _ => trivial

/-- The solver of a session is reachable. -/
theorem Session.reachable {es : List Exchange} (h : Session s es) :
    ∃ config, Reachable config s := by
  obtain ⟨config, s₀, hcreate, hsteps⟩ := h
  refine ⟨config, ?_⟩
  induction hsteps with
  | nil => exact .create hcreate
  | snoc _ hc hr hvars ih => exact ih.call (hc.representable hr ih.standing.1.vars) hr hvars

theorem Reachable.documented (h : Reachable config s) : s.Documented := by
  obtain ⟨hstanding, hlevel⟩ := h.standing
  rcases hstanding.stood with ⟨F, hs, he⟩ | ⟨-, hdoc⟩
  · exact Solver.Idle.documented_of_equipped ⟨hs, hlevel⟩ he
  · exact hdoc

/-- A solver in which a clause watches other literals than at first, since its first variable was made
false. -/
theorem Reachable.exists_moved : ∃ s : Solver, Reachable Config.plain s ∧ s.refuted = false ∧
    s.kernel.propagate = .ok (none, s.kernel) ∧
    s.store.get? ⟨0⟩ = some ⟨.watched ⟨⟨2⟩, false⟩ ⟨⟨3⟩, false⟩ [⟨⟨1⟩, false⟩], 0.0, false, none⟩ ∧
    s.literals [-2] = .ok [⟨⟨2⟩, true⟩] ∧ s.numVars = 3 ∧ s.budget = .ok .endless := by
  have h₀ : Reachable Config.plain _ := .create (show Solver.create Config.plain = .ok _ from rfl)
  have h₁ := h₀.call (c := .newVars 3) trivial rfl (by decide)
  have h₂ := h₁.call (c := .addClause [1, 2, 3]) trivial
    (Solver.perform_addClause_of_empty rfl rfl rfl rfl rfl rfl rfl) (by decide)
  have h₃ := h₂.call (c := .addClause [-1]) trivial rfl (by decide)
  exact ⟨_, h₃, rfl, rfl, rfl, rfl, rfl, rfl⟩

end Cdcl
