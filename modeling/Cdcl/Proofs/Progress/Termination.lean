import Cdcl.Proofs.Progress.Strategy
import Cdcl.Proofs.Trail.Rank

/-!
# Searches end

Without restarts every step of a search ends it or leads to a trail of smaller rank, whatever learnt
clauses are given up and whatever unassigned literals the decisions are on (`Underway.stepBy`). So
every search ends (`Underway.runBy`), and without limits it ends with an answer. Hence a solver that
is configured without restarts answers every call for a search (`Attained.search_terminates`).
-/

namespace Cdcl
set_option autoImplicit false

namespace Solver

/-- What holds between two steps of a search over so many variables: only levels of assumptions are
empty. -/
structure Underway (s : Solver) (F : Formula) (A : List Literal) (n : Nat) : Prop
    extends Searching s F A where
  filled : s.trail.Filled A.length
  known : s.numVars = n

/-- How a search may end that has steps left. -/
def Concludes (b : Budget) (v : Verdict) : Prop := v ≠ .unfinished ∧ (b = .endless → v ≠ .timeout)

/-- What a step without restarts leads to: a smaller rank, or the end. -/
def Proceeds (s : Solver) (F : Formula) (A : List Literal) (n : Nat) (b : Budget) :
    Outcome × Solver → Prop
  | (.goOn r, s') => r.interval = none ∧ s'.Underway F A n ∧
      s'.trail.rank n A.length < s.trail.rank n A.length
  | (.finish v, _) => Concludes b v

/-- A search ends within its limits after some steps, and more steps do not change how. -/
def Finishes (b : Budget) (search : Nat → Except Fault (Verdict × Solver)) : Prop :=
  ∃ n v s', Concludes b v ∧ ∀ fuel, n ≤ fuel → search fuel = .ok (v, s')

/-- A search has an answer after some steps, and more steps do not change it. -/
def Answers (search : Nat → Except Fault (Verdict × Solver)) : Prop :=
  ∃ n v s', (v = .satisfiable ∨ v = .unsatisfiable) ∧ ∀ fuel, n ≤ fuel → search fuel = .ok (v, s')

variable {s s' s₁ : Solver} {F : Formula} {A : List Literal} {b : Budget} {r : Round} {n : Nat}
  {l : Literal} {conflict : ClauseRef} {σ : Strategy} {x : Outcome × Solver} {raws : List Int}

theorem Searching.underway (h : s.Searching F A) (hlevel : s.trail.level = 0) :
    s.Underway F A s.numVars :=
  ⟨h, Trail.filled_of_level_le (hlevel ▸ Nat.zero_le _), rfl⟩

theorem Underway.level_le (h : s.Underway F A n) : s.trail.level ≤ A.length + n :=
  h.known ▸ h.filled.level_le h.valid

theorem Proceeds.of_rank_le (h : s₁.Proceeds F A n b x)
    (hle : s₁.trail.rank n A.length ≤ s.trail.rank n A.length) : s.Proceeds F A n b x := by
  obtain ⟨out, s'⟩ := x
  cases out with
  | goOn r => exact ⟨h.1, h.2.1, lt_of_lt_of_le h.2.2 hle⟩
  | finish v => exact h

/-! ## Steps -/

/-- A step that meets a conflict has a result. -/
theorem Searching.succeeds_of_conflict (h : s.Searching F A)
    (hs₁ : s.propagate = .ok (some conflict, s₁)) (b : Budget) (r : Round) :
    ∃ x, Solver.step b A r s = .ok x := by
  obtain ⟨_, _, hfree, -⟩ := (h.equipped.supplied (n := 1)).step h.sane.paced h.signed h.names b r
  rw [step_paced_of_conflict hs₁] at hfree
  obtain ⟨x, hx, -⟩ := map_eq_ok_iff.1 hfree
  exact ⟨x, hx⟩

/-- A conflict ends the search, or the search returns to a level that gains a literal. -/
theorem Underway.step_of_conflict (h : s.Underway F A n)
    (hs₁ : s.propagate = .ok (some conflict, s₁)) (hr : r.interval = none) (b : Budget) :
    ∃ x, step b A r s = .ok x ∧ s.Proceeds F A n b x := by
  obtain ⟨⟨out, s'⟩, hstep⟩ := h.toSearching.succeeds_of_conflict hs₁ b r
  refine ⟨_, hstep, ?_⟩
  obtain ⟨_, hsame, hx⟩ := bind_eq_ok_iff.1 hstep
  obtain rfl := Except.ok.inj (hs₁.symm.trans hsame)
  obtain ⟨hkeeps₁, hclash, hlists₁, hext⟩ := h.sane.propagate hs₁
  by_cases hlev : s₁.trail.level = 0
  · change onConflict b r conflict s₁ = _ at hx
    unfold onConflict at hx
    obtain ⟨s₂, -, hx⟩ := bind_eq_ok_iff.1 ((if_pos hlev).symm.trans hx)
    obtain ⟨rfl, -⟩ := Prod.mk.inj (Except.ok.inj hx)
    exact ⟨by simp, by simp⟩
  · obtain ⟨-, ⟨a, hlearns, l, reason, htrail, hnone, hcell, -⟩, hout⟩ :=
      onConflict_learns hkeeps₁ hclash hlists₁ hlev hx
    rcases hout with rfl | rfl
    · exact ⟨by simp, fun hb => absurd rfl ((onConflict_advances hx).1.ne_timeout hb)⟩
    · have hvalid₁ : s₁.trail.Valid := hclash.sound.trail
      have hvars₁ : s₁.trail.vars = n := hext.vars.trans h.known
      have hle : a.level ≤ s₁.trail.level := Nat.le_of_lt hlearns.level_lt
      have hlevel₁ : s₁.trail.level ≤ A.length + n := hext.level ▸ h.level_le
      -- Propagation has not raised the rank before the return lowers it.
      have hgains := hvalid₁.gains_of_return (r := reason) hle hcell hnone
      rw [← htrail] at hgains
      refine ⟨hr, ⟨(h.toSearching.step hstep).2 _ rfl, ?_, ?_⟩, ?_⟩
      · rw [htrail]
        exact (h.filled.of_extends hext).of_return hvalid₁ hnone
      · rw [Solver.numVars, htrail]
        exact Trail.vars_undoTo.trans hvars₁
      · exact lt_of_lt_of_le (hgains.rank_lt hvars₁ (Nat.le_trans hle hlevel₁))
          (hext.rank_le hvalid₁ h.known h.level_le)

/-- A choice opens a level that gains its decision, or the level of an assumption that holds. -/
theorem Underway.of_chosen (h : s.Underway F A n) (hr : r.interval = none)
    (hx : s.Chosen F A r x) : s.Proceeds F A n b x := by
  obtain ⟨out, s'⟩ := x
  cases out with
  | finish v =>
    obtain ⟨rfl | rfl, -⟩ := hx
    · exact ⟨by simp, by simp⟩
    · exact ⟨by simp, by simp⟩
  | goOn r' =>
    obtain ⟨rfl, hs', ⟨hlt, htrail⟩ | ⟨l, hname, hnone, htrail⟩⟩ := hx
    · -- The level of an assumption that holds gains nothing, but one assumption fewer is left.
      have hlevel : s'.trail.level ≤ A.length := by
        rw [htrail, Trail.level_openLevel]
        exact hlt
      exact ⟨hr, ⟨hs', Trail.filled_of_level_le hlevel,
        (congrArg Trail.vars htrail).trans h.known⟩, htrail ▸ Trail.rank_openLevel_lt hlt⟩
    · have hunderway : s'.Underway F A n := by
        refine ⟨hs', ?_, (congrArg Trail.vars htrail).trans h.known⟩
        rw [htrail]
        exact h.filled.decide h.valid hname hnone
      have hlevel : s.trail.level + 1 ≤ A.length + n := by
        have hle := hunderway.level_le
        rw [htrail] at hle
        exact Nat.le_trans (Nat.le_of_eq Trail.level_openLevel.symm) hle
      refine ⟨hr, hunderway, ?_⟩
      rw [htrail]
      exact (h.valid.gains_of_decide hname hnone).rank_lt h.known hlevel

/-- A step without restarts ends the search or leads to a smaller rank. -/
theorem Underway.stepBy (h : s.Underway F A n) (hσ : σ.Allowed F A) (hr : r.interval = none)
    (b : Budget) : ∃ x, stepBy b σ A r s = .ok x ∧ s.Proceeds F A n b x := by
  obtain ⟨conflict, s₁, hs₁, -⟩ := h.propagate
  cases conflict with
  | some conflict =>
    rw [stepBy_of_conflict hs₁]
    exact h.step_of_conflict hs₁ hr b
  | none =>
    have hover : r.isOver = false := by rw [Round.isOver, hr]
    obtain ⟨s₂, x, hx, h₂, hchosen, -, hext, hforgets⟩ :=
      h.stepBy_of_fixpoint (b := b) hs₁ hσ hover
    have hvalid₁ : s₁.trail.Valid :=
      (h.sane.keeps.propagate h.sane.ready hs₁).2.1.1.sound.trail
    have hunderway : s₂.Underway F A n :=
      ⟨h₂, (h.filled.of_extends hext).of_forgets hforgets,
        hforgets.vars.trans (hext.vars.trans h.known)⟩
    refine ⟨x, hx, (hunderway.of_chosen hr hchosen).of_rank_le ?_⟩
    rw [hforgets.rank_eq]
    exact hext.rank_le hvalid₁ h.known h.level_le

/-! ## Whole searches -/

/-- The rank cannot decrease for ever, so a search ends. -/
theorem Underway.runBy {σ : Nat → Strategy} (h : s.Underway F A n)
    (hσ : ∀ i, (σ i).Allowed F A) (hr : r.interval = none) (b : Budget) :
    Finishes b fun fuel => Solver.runBy b A fuel σ r s := by
  induction hrank : s.trail.rank n A.length using WellFoundedLT.induction generalizing s r σ with
  | ind _ ih =>
    subst hrank
    obtain ⟨⟨out, s₁⟩, hs₁, hproceeds⟩ := h.stepBy (hσ 0) hr b
    cases out with
    | finish v =>
      refine ⟨1, v, s₁, hproceeds, fun fuel hfuel => ?_⟩
      obtain ⟨fuel, rfl⟩ := Nat.exists_eq_add_of_le' hfuel
      exact bind_eq_ok_iff.2 ⟨_, hs₁, rfl⟩
    | goOn r₁ =>
      obtain ⟨hr₁, h₁, hlt⟩ := hproceeds
      obtain ⟨m, v, s', hv, hrun⟩ := ih _ hlt h₁ (fun i => hσ (i + 1)) hr₁ rfl
      refine ⟨m + 1, v, s', hv, fun fuel hfuel => ?_⟩
      obtain ⟨fuel, rfl⟩ := Nat.exists_eq_add_of_le' (Nat.le_trans (Nat.le_add_left 1 m) hfuel)
      exact bind_eq_ok_iff.2 ⟨_, hs₁, hrun fuel (Nat.le_of_succ_le_succ hfuel)⟩

/-- Without limits it ends with an answer. -/
theorem Finishes.answers {search : Nat → Except Fault (Verdict × Solver)}
    (h : Finishes .endless search) : Answers search := by
  obtain ⟨m, v, s', ⟨hsteps, htime⟩, hrun⟩ := h
  refine ⟨m, v, s', ?_, hrun⟩
  cases v with
  | satisfiable => exact Or.inl rfl
  | unsatisfiable => exact Or.inr rfl
  | timeout => exact absurd rfl (htime rfl)
  | unfinished => exact absurd rfl hsteps

theorem Standing.backtrack_succeeds (h : s.Standing) : ∃ s', s.backtrack 0 = .ok s' := by
  rcases h.stood with ⟨F, -, he⟩ | ⟨-, hdoc⟩
  · obtain ⟨_, hfree, -⟩ := Supplied.backtrack he 0
    rw [backtrack_paced] at hfree
    obtain ⟨s', hs', -⟩ := map_eq_ok_iff.1 hfree
    exact ⟨s', hs'⟩
  · unfold Solver.backtrack
    rw [Trail.undoTo_of_le (Nat.le_of_eq hdoc.level)]
    exact ⟨_, rfl⟩

theorem Standing.solveBy_finishes {σ : Nat → Strategy} (h : s.Standing)
    (hlevel : s.trail.level = 0) (hσ : ∀ i F A, (σ i).Allowed F A) (hs : s.restarts = .never)
    (hraws : InRange s.numVars raws) (hb : s.budget = .ok b) :
    Finishes b fun fuel => s.solveBy σ fuel raws := by
  unfold Solver.solveBy
  rcases h.stood with ⟨F, hsane, he⟩ | ⟨⟨F, hrefuted⟩, -⟩
  · have hopen : ¬ s.refuted = true := by simp [hsane.keeps.undecided]
    obtain ⟨ls, hls⟩ := literals_succeeds hraws
    obtain ⟨-, hnames⟩ := literals_eq_ok (Nat.lt_trans h.vars (by decide)) hls
    have hsearching : (s.atStart ls.length .never).Searching F ls :=
      (Idle.searching ⟨hsane, hlevel⟩ he h.vars hnames).atStart ls.length
    obtain ⟨m, v, s₁, hv, hrun⟩ :=
      (hsearching.underway hlevel).runBy (fun i => hσ i F ls) (r := { interval := none }) rfl b
    obtain ⟨s₂, hs₂⟩ :=
      (hsearching.runBy (fun i => hσ i F ls) (hrun m (Nat.le_refl m))).1.backtrack_succeeds
    have hnext : s.restarts.next = .ok (none, .never) := by
      rw [hs]
      rfl
    exact ⟨m, v, _, hv, fun fuel hfuel => (if_neg hopen).trans (bind_eq_ok_iff.2 ⟨ls, hls,
      bind_eq_ok_iff.2 ⟨b, hb, bind_eq_ok_iff.2 ⟨_, hnext, bind_eq_ok_iff.2 ⟨_, hrun fuel hfuel,
        bind_eq_ok_iff.2 ⟨s₂, hs₂, rfl⟩⟩⟩⟩⟩)⟩
  · exact ⟨0, .unsatisfiable, _, ⟨by simp, by simp⟩, fun _ _ => if_pos hrefuted.refuted⟩

end Solver

open Solver

variable {config : Config} {s : Solver}

/-- Without restarts and limits every search of an open formula has an answer, whatever the
assumptions, the learnt clauses that are given up and the unassigned literals that decisions are on.
So under a configuration without restarts every call for a search ends, with an answer unless a limit
is reached. -/
theorem Attained.search_terminates (h : Attained config s) :
    (s.refuted = false → ∀ A : List Literal, (∀ l ∈ A, s.trail.Names l) →
      Answers (fun fuel => run .endless A fuel { interval := none } s) ∧
      ∀ c : Nat → Choices, (∀ i, (c i).Proper) → Answers fun fuel =>
        runBy .endless A fuel (fun i => .free (c i)) { interval := none } s) ∧
    (config.restarts = .never → ∀ raws b, InRange s.numVars raws → s.budget = .ok b →
      Finishes b (fun fuel => s.solve fuel raws) ∧
      ∀ c : Nat → Choices, (∀ i, (c i).Proper) → Finishes b fun fuel =>
        s.solveBy (fun i => .free (c i)) fuel raws) := by
  obtain ⟨hstanding, hlevel⟩ := h.standing
  constructor
  · intro hopen A hnames
    obtain ⟨F, hidle, he⟩ := hstanding.idle hlevel hopen
    have hunderway := (hidle.searching he hstanding.vars hnames).underway hlevel
    simp only [run_eq_runBy]
    exact ⟨(hunderway.runBy (fun _ => Strategy.own_allowed) rfl .endless).answers, fun c hc =>
      (hunderway.runBy (fun i => Strategy.free_allowed (hc i)) rfl .endless).answers⟩
  · intro hconfig raws b hraws hb
    have hnever := h.restarts_never hconfig
    simp only [solve_eq_solveBy]
    exact ⟨hstanding.solveBy_finishes hlevel (fun _ _ _ => Strategy.own_allowed) hnever hraws hb,
      fun c hc => hstanding.solveBy_finishes hlevel (fun i _ _ => Strategy.free_allowed (hc i))
        hnever hraws hb⟩

/-- Gives up every learnt clause, and decides on the first unassigned variable. -/
def Choices.forgetful : Choices where
  gone _ _ := true
  before _ _ _ := true
  pick s := ((List.range' 1 s.trail.vars).find? fun id => (s.trail.mark? ⟨id⟩).isNone).map
    fun id => ⟨⟨id⟩, true⟩

theorem Choices.forgetful_proper : Choices.forgetful.Proper := by
  intro s l hl
  obtain ⟨id, hid, rfl⟩ := Option.map_eq_some_iff.1 hl
  obtain ⟨hpos, hlt⟩ := List.mem_range'_1.1 (List.mem_of_find?_eq_some hid)
  rw [Nat.add_comm] at hlt
  exact ⟨⟨hpos, Nat.le_of_lt_succ hlt⟩, by simpa using List.find?_some hid⟩

/-- Searches under repeated and contradictory assumptions. -/
theorem Attained.search_terminates_contradictory : ∃ s : Solver, Attained Config.plain s ∧
    s.refuted = false ∧
    Answers (fun fuel => run .endless [⟨⟨2⟩, true⟩, ⟨⟨2⟩, true⟩, ⟨⟨2⟩, false⟩] fuel
      { interval := none } s) ∧
    Answers (fun fuel => runBy .endless [⟨⟨2⟩, true⟩, ⟨⟨2⟩, true⟩, ⟨⟨2⟩, false⟩] fuel
      (fun _ => .free .forgetful) { interval := none } s) ∧
    Finishes .endless (fun fuel => s.solve fuel [-2, -2, 2]) := by
  obtain ⟨s, hs, hopen, -, -, -, hvars, hbudget⟩ := Reachable.exists_moved
  obtain ⟨hsearch, hsolve⟩ := Attained.search_terminates hs.attained
  have hnames : ∀ l ∈ [(⟨⟨2⟩, true⟩ : Literal), ⟨⟨2⟩, true⟩, ⟨⟨2⟩, false⟩], s.trail.Names l := by
    unfold Trail.Names
    rw [show s.trail.vars = 3 from hvars]
    decide
  obtain ⟨hown, hfree⟩ := hsearch hopen _ hnames
  exact ⟨s, hs.attained, hopen, hown, hfree _ fun _ => Choices.forgetful_proper,
    (hsolve rfl _ _ (hvars ▸ by decide) hbudget).1⟩

end Cdcl
