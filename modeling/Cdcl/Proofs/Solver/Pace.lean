import Cdcl.Proofs.Progress.Restart
import Cdcl.Proofs.Solver.Limits

/-!
# The pace of a search

The limits of a call and the restart intervals to come are the `Pace` of a solver. Apart from the
budget of a search and its restarts no operation looks at it or changes it: on a solver with another
pace it does the same. So a step of a search goes as it would without limits and restarts
(`step_free`), and what is shown of solvers without them holds of all. A search changes the pace only
by taking restart intervals (`run_precedes`).
-/

namespace Cdcl
set_option autoImplicit false

/-- How far a search may go and when it starts over. -/
structure Pace where
  time : Option Nat
  conflicts : Option Nat
  restarts : Restart

/-- Without limits and restarts. -/
def Pace.free : Pace := ⟨none, none, .never⟩

section
variable {α α' β β' : Type} {x : Except Fault α} {x' : Except Fault α'} {f : α → α'} {h : β → β'}

/-- The first of two operations commutes with a change of the state, and so does the second. -/
theorem bind_eq_map_bind {g : α → Except Fault β} {g' : α' → Except Fault β'} (hx : x' = f <$> x)
    (hg : ∀ a, g' (f a) = h <$> g a) : x' >>= g' = h <$> (x >>= g) := by
  rw [hx, bind_map_left, map_bind]
  exact bind_congr hg

/-- The first of two operations does not look at what changes. -/
theorem read_eq_map_bind {g : α → Except Fault β} {g' : α → Except Fault β'}
    (hg : ∀ a, g' a = h <$> g a) : x >>= g' = h <$> (x >>= g) := by
  rw [map_bind]
  exact bind_congr hg

theorem map_eq_ok_iff {a' : α'} {f : α → α'} : f <$> x = .ok a' ↔ ∃ a, x = .ok a ∧ f a = a' := by
  cases x with
  | error e => exact ⟨fun h => absurd h (by simp [Functor.map, Except.map]), by simp⟩
  | ok a =>
    exact ⟨fun h => ⟨a, rfl, Except.ok.inj h⟩, fun ⟨_, ha, h⟩ => h ▸ Except.ok.inj ha ▸ rfl⟩

end

theorem Advances.precedes {b : Budget} {r : Round} {a a' : Account} {out : Outcome}
    (h : Advances b r a out a') : a.intervals.Precedes a'.intervals := by
  cases h with
  | restarted _ _ hnext => exact .of_next hnext
  | _ => exact .of_eq rfl

namespace Solver

def pace (s : Solver) : Pace := ⟨s.timeLimit, s.conflictLimit, s.restarts⟩

/-- The same solver with another pace. -/
def paced (s : Solver) (p : Pace) : Solver :=
  { s with timeLimit := p.time, conflictLimit := p.conflicts, restarts := p.restarts }

variable {s s' : Solver} {p : Pace} {l : Literal} {ls A : List Literal} {ref : ClauseRef} {n : Nat}
  {b : Budget} {r : Round} {out : Outcome} {e : Stored} {rest : List (ClauseRef × Stored)}

@[simp]
theorem paced_store : (s.paced p).store = s.store := rfl

@[simp]
theorem paced_trail : (s.paced p).trail = s.trail := rfl

@[simp]
theorem paced_known : (s.paced p).known = s.known := rfl

@[simp]
theorem paced_certificate : (s.paced p).certificate = s.certificate := rfl

/-! ## Changes to the parts -/

theorem certify_paced (step : Certificate → Except Fault Certificate) :
    (s.paced p).certify step = (·.paced p) <$> s.certify step := by
  unfold certify
  rw [paced_certificate]
  cases s.certificate with
  | none => rfl
  | some c => exact read_eq_map_bind fun _ => rfl

theorem certifyClause_paced (step : Certificate → Except Fault (ClauseId × Certificate)) :
    (s.paced p).certifyClause step = Prod.map id (·.paced p) <$> s.certifyClause step := by
  unfold certifyClause
  rw [paced_certificate]
  cases s.certificate with
  | none => rfl
  | some c => exact read_eq_map_bind fun _ => rfl

theorem recordRoot_paced : (s.paced p).recordRoot = (·.paced p) <$> s.recordRoot :=
  certify_paced _

theorem backtrack_paced : (s.paced p).backtrack n = (·.paced p) <$> s.backtrack n :=
  read_eq_map_bind fun _ => rfl

theorem propagate_paced : (s.paced p).propagate = Prod.map id (·.paced p) <$> s.propagate :=
  read_eq_map_bind fun _ => rfl

theorem assert_paced {reason : Option ClauseRef} {f : Fault} :
    (s.paced p).assert l reason f = (·.paced p) <$> s.assert l reason f := by
  refine read_eq_map_bind fun o => ?_
  cases o <;> rfl

theorem insertConstraint_paced :
    (s.paced p).insertConstraint e = Prod.map id (·.paced p) <$> s.insertConstraint e :=
  read_eq_map_bind fun _ => rfl

theorem strikeOff_paced : (s.paced p).strikeOff e = (·.paced p) <$> s.strikeOff e := by
  unfold strikeOff
  cases e.learnt with
  | true => rfl
  | false => exact read_eq_map_bind fun _ => rfl

theorem removeConstraint_paced :
    (s.paced p).removeConstraint ref = (·.paced p) <$> s.removeConstraint ref := by
  unfold removeConstraint
  rw [paced_store]
  cases s.store.get? ref with
  | none => rfl
  | some e =>
    exact read_eq_map_bind fun k => bind_eq_map_bind (certify_paced (s := { s with kernel := k }) _)
      fun s₁ => bind_eq_map_bind strikeOff_paced fun _ => rfl

theorem rootConflict_paced :
    (s.paced p).rootConflict ref = (·.paced p) <$> s.rootConflict ref := by
  refine bind_eq_map_bind recordRoot_paced fun s₁ => read_eq_map_bind fun e =>
    bind_eq_map_bind (certifyClause_paced _) fun x => ?_
  obtain ⟨id, s₂⟩ := x
  cases id <;> rfl

/-! ## Removing constraints -/

theorem bumpClause_paced : (s.paced p).bumpClause ref = (·.paced p) <$> s.bumpClause ref := by
  refine read_eq_map_bind fun e => ?_
  change (if clauseRescaleLimit < e.activity + s.clauseIncrement then _ else _) = _
  dsimp only
  split <;> rfl

theorem bumpLearnts_paced {refs : List ClauseRef} :
    (s.paced p).bumpLearnts refs = (·.paced p) <$> s.bumpLearnts refs := by
  induction refs generalizing s with
  | nil => rfl
  | cons ref refs ih =>
    refine read_eq_map_bind fun e => ?_
    cases e.learnt with
    | true => exact bind_eq_map_bind bumpClause_paced fun _ => ih
    | false => exact ih

theorem removeInactive_paced {extra : Float} {quota : Nat} :
    (s.paced p).removeInactive extra quota rest =
      (·.paced p) <$> s.removeInactive extra quota rest := by
  induction rest generalizing s quota with
  | nil => rfl
  | cons x rest ih =>
    have hkept : ((s.paced p).keepLearnt x.1).removeInactive extra (quota - 1) rest =
        (·.paced p) <$> (s.keepLearnt x.1).removeInactive extra (quota - 1) rest :=
      ih (s := s.keepLearnt x.1)
    unfold removeInactive
    cases x.2.constraint.isBinary with
    | true => exact hkept
    | false =>
      refine read_eq_map_bind fun locked => ?_
      change (if (!locked && _) = true then _ else _) = _ <$> (if (!locked && _) = true then _ else _)
      split
      · exact bind_eq_map_bind removeConstraint_paced fun _ => ih
      · exact hkept

theorem reduce_paced : (s.paced p).reduce = (·.paced p) <$> s.reduce :=
  read_eq_map_bind fun _ =>
    bind_eq_map_bind (removeInactive_paced (s := { s with learnts := [] })) fun _ => rfl

theorem removeRedundant_paced :
    (s.paced p).removeRedundant rest = (·.paced p) <$> s.removeRedundant rest := by
  induction rest generalizing s with
  | nil => rfl
  | cons x rest ih =>
    exact read_eq_map_bind fun t => bind_eq_map_bind
      (removeConstraint_paced (s := { s with kernel := { s.kernel with trail := t } })) fun _ => ih

theorem simplify_paced : (s.paced p).simplify = (·.paced p) <$> s.simplify := by
  unfold simplify
  change (if s.trail.literals.size = s.simplified then _ else _) = _
  split
  · rfl
  · exact read_eq_map_bind fun found => bind_eq_map_bind removeRedundant_paced fun _ => rfl

/-! ## Searching -/

theorem analyze_paced :
    (s.paced p).analyze ref = Prod.map id (Prod.map id (·.paced p)) <$> s.analyze ref :=
  read_eq_map_bind fun x => read_eq_map_bind fun order => read_eq_map_bind fun _ =>
    bind_eq_map_bind (certifyClause_paced (s := setOrder { s with analyzer := x.2 } order) _)
      fun _ => rfl

theorem learn_paced {a : Analysis} {id : Option ClauseId} :
    (s.paced p).learn a id = (·.paced p) <$> s.learn a id := by
  refine bind_eq_map_bind bumpLearnts_paced fun s₁ => bind_eq_map_bind backtrack_paced fun s₂ => ?_
  match a.learnt with
  | [] => rfl
  | [l] =>
    exact bind_eq_map_bind assert_paced fun _ => bind_eq_map_bind (certify_paced _) fun _ => rfl
  | l :: m :: ls =>
    exact read_eq_map_bind fun c => bind_eq_map_bind insertConstraint_paced fun x =>
      bind_eq_map_bind (bumpClause_paced (s := x.2.keepLearnt x.1)) fun _ =>
        bind_eq_map_bind assert_paced fun _ => rfl

theorem onConflict_paced :
    onConflict b r ref (s.paced p) = Prod.map id (·.paced p) <$> onConflict b r ref s := by
  unfold onConflict
  dsimp only
  set s₁ : Solver := { s with stats := { s.stats with conflicts := s.stats.conflicts + 1 } }
  change (if s.trail.level = 0 then _ else _) = _ <$> (if s.trail.level = 0 then _ else _)
  by_cases hlev : s.trail.level = 0
  · rw [if_pos hlev, if_pos hlev]
    exact bind_eq_map_bind (rootConflict_paced (s := s₁)) fun _ => rfl
  · rw [if_neg hlev, if_neg hlev]
    refine bind_eq_map_bind (analyze_paced (s := s₁)) fun x => bind_eq_map_bind learn_paced
      fun s₂ => ?_
    change (if b.exhausted s₂.stats.conflicts s₂.now then _ else _) =
      _ <$> (if b.exhausted s₂.stats.conflicts s₂.now then _ else _)
    by_cases hb : b.exhausted s₂.stats.conflicts s₂.now
    · rw [if_pos hb, if_pos hb]
      rfl
    · rw [if_neg hb, if_neg hb]
      rfl

theorem decideOn_paced :
    decideOn r l (s.paced p) = Prod.map id (·.paced p) <$> decideOn r l s :=
  read_eq_map_bind fun _ => rfl

theorem choose_paced : choose A r (s.paced p) = Prod.map id (·.paced p) <$> choose A r s := by
  unfold choose
  rw [paced_trail]
  cases A[s.trail.level]? with
  | none =>
    refine read_eq_map_bind fun x => ?_
    obtain ⟨_ | l, order⟩ := x
    · rfl
    · exact decideOn_paced
        (s := { s with order, stats := { s.stats with decisions := s.stats.decisions + 1 } })
  | some l =>
    refine read_eq_map_bind fun sat => ?_
    cases sat with
    | true => rfl
    | false =>
      refine read_eq_map_bind fun fals => ?_
      cases fals with
      | true => rfl
      | false => exact decideOn_paced

/-! ## Steps -/

theorem settle_paced : (s.paced p).settle = (·.paced p) <$> s.settle := by
  change (if s.trail.level = 0 then _ else _) = _ <$> (if s.trail.level = 0 then _ else _)
  split
  · exact bind_eq_map_bind recordRoot_paced fun _ => simplify_paced
  · rfl

theorem thin_paced : (s.paced p).thin = (·.paced p) <$> s.thin := by
  change (if s.hasTooManyLearnts then _ else _) = _ <$> (if s.hasTooManyLearnts then _ else _)
  split
  · exact reduce_paced
  · rfl

theorem onFixpoint_paced (h : r.isOver = false) :
    onFixpoint b A r (s.paced p) = Prod.map id (·.paced p) <$> onFixpoint b A r s := by
  rw [onFixpoint_eq, onFixpoint_eq, h]
  exact bind_eq_map_bind settle_paced fun _ => bind_eq_map_bind thin_paced fun _ => choose_paced

/-- A restart takes an interval from the pace and leaves the rest of it. -/
theorem restart_free (hr : restart b s = .ok (out, s')) :
    ∃ out', restart b (s.paced .free) = .ok (out', s'.paced .free) := by
  obtain ⟨s₁, hs₁, hr⟩ := bind_eq_ok_iff.1 hr
  have hs₁' : (s.paced .free).backtrack 0 = .ok (s₁.paced .free) := by
    rw [backtrack_paced, hs₁]
    rfl
  dsimp only at hr
  split at hr
  · next hb =>
    obtain ⟨rfl, rfl⟩ := Prod.mk.inj (Except.ok.inj hr)
    exact ⟨_, bind_eq_ok_iff.2 ⟨_, hs₁', if_pos hb⟩⟩
  · next hb =>
    obtain ⟨⟨interval, restarts⟩, -, hr⟩ := bind_eq_ok_iff.1 hr
    obtain ⟨rfl, rfl⟩ := Prod.mk.inj (Except.ok.inj hr)
    exact ⟨_, bind_eq_ok_iff.2 ⟨_, hs₁', if_neg hb⟩⟩

theorem onFixpoint_free (hr : onFixpoint b A r s = .ok (out, s')) :
    ∃ out', onFixpoint b A r (s.paced .free) = .ok (out', s'.paced .free) := by
  cases hover : r.isOver with
  | false => exact ⟨out, by rw [onFixpoint_paced hover, hr]; rfl⟩
  | true =>
    rw [onFixpoint_eq] at hr ⊢
    obtain ⟨s₁, hs₁, hr⟩ := bind_eq_ok_iff.1 hr
    rw [if_pos hover] at hr
    obtain ⟨out', hout⟩ := restart_free hr
    refine ⟨out', bind_eq_ok_iff.2 ⟨s₁.paced .free, ?_, (if_pos hover).trans hout⟩⟩
    rw [settle_paced, hs₁]
    rfl

/-- What is done about a conflict does not depend on the pace. -/
theorem step_paced_of_conflict {s₁ : Solver} (h : s.propagate = .ok (some ref, s₁)) :
    step b A r (s.paced p) = Prod.map id (·.paced p) <$> step b A r s := by
  unfold step
  rw [propagate_paced, h]
  exact onConflict_paced

/-- A step goes as it would without limits and restarts. -/
theorem step_free (hr : step b A r s = .ok (out, s')) :
    ∃ out', step b A r (s.paced .free) = .ok (out', s'.paced .free) := by
  obtain ⟨⟨conflict, s₁⟩, hs₁, hr⟩ := bind_eq_ok_iff.1 hr
  have hs₁' : (s.paced .free).propagate = .ok (conflict, s₁.paced .free) := by
    rw [propagate_paced, hs₁]
    rfl
  cases conflict with
  | some ref =>
    refine ⟨out, bind_eq_ok_iff.2 ⟨_, hs₁', ?_⟩⟩
    change onConflict b r ref (s₁.paced .free) = _
    rw [onConflict_paced, show onConflict b r ref s₁ = _ from hr]
    rfl
  | none =>
    obtain ⟨out', hout⟩ := onFixpoint_free hr
    exact ⟨out', bind_eq_ok_iff.2 ⟨_, hs₁', hout⟩⟩

/-! ## Additions -/

theorem propagateRoot_paced :
    (s.paced p).propagateRoot = Prod.map id (·.paced p) <$> s.propagateRoot := by
  refine bind_eq_map_bind propagate_paced fun x => ?_
  obtain ⟨_ | conflict, s₁⟩ := x
  · exact bind_eq_map_bind recordRoot_paced fun _ => rfl
  · exact bind_eq_map_bind rootConflict_paced fun _ => rfl

theorem assertUnit_paced {id' : Option ClauseId} :
    (s.paced p).assertUnit l id' = Prod.map id (·.paced p) <$> s.assertUnit l id' :=
  bind_eq_map_bind assert_paced fun _ => bind_eq_map_bind (certify_paced _) fun _ =>
    propagateRoot_paced

theorem assertAll_paced : (s.paced p).assertAll ls = (·.paced p) <$> s.assertAll ls := by
  induction ls generalizing s with
  | nil => rfl
  | cons l ls ih => exact bind_eq_map_bind assert_paced fun _ => ih

theorem storeGiven_paced {c : Constraint} {given : List Literal} :
    (s.paced p).storeGiven c given = Prod.map id (·.paced p) <$> s.storeGiven c given := by
  unfold storeGiven
  rw [paced_known]
  cases s.known[c.key]? with
  | some ref => rfl
  | none =>
    exact bind_eq_map_bind (certifyClause_paced _) fun _ =>
      bind_eq_map_bind insertConstraint_paced fun _ => rfl

theorem addLiterals_paced :
    (s.paced p).addLiterals ls = Prod.map id (·.paced p) <$> s.addLiterals ls := by
  unfold addLiterals
  change (if s.refuted then _ else _) = _ <$> (if s.refuted then _ else _)
  split
  · rfl
  · refine read_eq_map_bind fun given => ?_
    match given with
    | .error cause => exact bind_eq_map_bind (certifyClause_paced _) fun _ => rfl
    | .ok .satisfied => rfl
    | .ok (.unit l) =>
      exact bind_eq_map_bind (certifyClause_paced _) fun _ =>
        bind_eq_map_bind assertUnit_paced fun _ => rfl
    | .ok (.clause rest) =>
      exact read_eq_map_bind fun c => bind_eq_map_bind storeGiven_paced fun _ => rfl

theorem addCardinality_paced {degree : Nat} : (s.paced p).addCardinality ls degree =
    Prod.map id (·.paced p) <$> s.addCardinality ls degree := by
  refine read_eq_map_bind fun given => ?_
  match given with
  | .error cause => rfl
  | .ok .satisfied => rfl
  | .ok (.clause .satisfied) => rfl
  | .ok (.units units) =>
    exact bind_eq_map_bind assertAll_paced fun _ => bind_eq_map_bind propagateRoot_paced fun _ => rfl
  | .ok (.clause (.unit l)) => exact bind_eq_map_bind assertUnit_paced fun _ => rfl
  | .ok (.clause (.clause rest)) =>
    exact read_eq_map_bind fun c => bind_eq_map_bind storeGiven_paced fun _ => rfl
  | .ok (.atLeast rest degree) =>
    exact read_eq_map_bind fun c => bind_eq_map_bind storeGiven_paced fun _ => rfl

theorem literals_paced {raws : List Int} : (s.paced p).literals raws = s.literals raws :=
  literals_congr rfl

theorem addClause_paced {raws : List Int} :
    (s.paced p).addClause raws = Prod.map id (·.paced p) <$> s.addClause raws := by
  unfold addClause
  rw [literals_paced]
  exact read_eq_map_bind fun _ => addLiterals_paced

theorem addAtLeast_paced {raws : List Int} {degree : Nat} :
    (s.paced p).addAtLeast raws degree = Prod.map id (·.paced p) <$> s.addAtLeast raws degree := by
  unfold addAtLeast
  rw [literals_paced]
  refine read_eq_map_bind fun ls => ?_
  change (if s.refuted then _ else if s.certificate.isSome then _ else _) =
    _ <$> (if s.refuted then _ else if s.certificate.isSome then _ else _)
  split
  · rfl
  · split
    · match degree with
      | 0 => rfl
      | 1 => exact addLiterals_paced
      | _ + 2 => rfl
    · exact addCardinality_paced

theorem newVars_paced {count : Nat} :
    (s.paced p).newVars count = (·.paced p) <$> s.newVars count := by
  refine read_eq_map_bind fun x => ?_
  obtain ⟨_ | v, k⟩ := x
  · rfl
  · refine read_eq_map_bind fun analyzer => ?_
    exact bind_eq_map_bind (certify_paced (s := { s with kernel := k, analyzer }) _) fun s₁ =>
      read_eq_map_bind fun o => rfl

theorem enableCertificate_paced :
    (s.paced p).enableCertificate = (·.paced p) <$> s.enableCertificate := by
  refine read_eq_map_bind fun _ => ?_
  rw [paced_certificate]
  cases s.certificate with
  | some _ => rfl
  | none => exact read_eq_map_bind fun _ => rfl

/-! ## Keeping the pace -/

/-- What does not depend on the pace leaves it as it is. -/
theorem pace_eq_of_map {x : Except Fault Solver} (h : x = (·.paced p) <$> x) (hr : x = .ok s') :
    s'.pace = p := by
  rw [hr] at h
  exact congrArg pace (Except.ok.inj h)

theorem pace_eq_of_map_snd {α : Type} {x : Except Fault (α × Solver)} {a : α}
    (h : x = Prod.map id (·.paced p) <$> x) (hr : x = .ok (a, s')) : s'.pace = p := by
  rw [hr] at h
  exact congrArg (fun y => y.2.pace) (Except.ok.inj h)

theorem step_precedes (hr : step b A r s = .ok (out, s')) : s.restarts.Precedes s'.restarts :=
  (step_advances hr).precedes

theorem run_precedes {fuel : Nat} {v : Verdict} (hr : run b A fuel r s = .ok (v, s')) :
    s.restarts.Precedes s'.restarts :=
  run_induction (P := fun _ t => s.restarts.Precedes t.restarts)
    (Q := fun _ t => s.restarts.Precedes t.restarts) hr (.of_eq rfl)
    (fun h hs₁ => h.trans (step_precedes hs₁)) (fun h hs₁ => h.trans (step_precedes hs₁)) id

end Solver
end Cdcl
