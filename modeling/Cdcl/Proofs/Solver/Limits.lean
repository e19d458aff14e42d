import Cdcl.Proofs.Order.Shape
import Cdcl.Proofs.Solver.Addition
import Cdcl.Proofs.Solver.Fixpoint

/-!
# Limits and counters

The limits of a solver, its restart intervals, its counts of conflicts and restarts and its model are
its `Account`. Only the step of a search changes it, and `Advances` says how: the operations that a
step consists of leave it as it is, and so does every addition. They leave the shape of the order as
it is as well, so lemmas about them are stated of the `outline`, which is both. What follows for the
limits is `Retains`. The budget of a solver without limits is endless, and an endless search never
ends in a timeout (`solve_retains`).
-/

namespace Cdcl
set_option autoImplicit false

/-- The budget of a search without limits. -/
def Budget.endless : Budget := ⟨none, none⟩

/-- The limits and intervals of a search and what it has counted and found so far. -/
structure Account where
  timeLimit : Option Nat
  conflictLimit : Option Nat
  /-- Whether there is a certificate. -/
  certified : Bool
  intervals : Restart
  conflicts : Nat
  restarts : Nat
  model : Option (List Int)

/-- What a step of a search can do to the account, and what follows it. -/
inductive Advances (b : Budget) (r : Round) (a : Account) : Outcome → Account → Prop
  | refuted : Advances b r a (.finish .unsatisfiable) { a with conflicts := a.conflicts + 1 }
  | learnt {now : Nat} (hleft : b.exhausted (a.conflicts + 1) now = false) : Advances b r a
      (.goOn { r with conflicts := r.conflicts + 1 }) { a with conflicts := a.conflicts + 1 }
  | exhausted {now : Nat} (hnone : b.exhausted (a.conflicts + 1) now = true) :
      Advances b r a (.finish .timeout) { a with conflicts := a.conflicts + 1 }
  | restarted {interval : Option Nat} {intervals : Restart} {now : Nat} (hover : r.isOver = true)
      (hleft : b.exhausted a.conflicts now = false)
      (hnext : a.intervals.next = .ok (interval, intervals)) :
      Advances b r a (.goOn { interval }) { a with restarts := a.restarts + 1, intervals }
  | stopped {now : Nat} (hover : r.isOver = true) (hnone : b.exhausted a.conflicts now = true) :
      Advances b r a (.finish .timeout) { a with restarts := a.restarts + 1 }
  | decided (hover : r.isOver = false) : Advances b r a (.goOn r) a
  | failed (hover : r.isOver = false) : Advances b r a (.finish .unsatisfiable) a
  | found (hover : r.isOver = false) (m : List Int) :
      Advances b r a (.finish .satisfiable) { a with model := some m }

namespace Advances

variable {b : Budget} {r : Round} {a a' : Account} {out : Outcome}

theorem frame (h : Advances b r a out a') : a'.timeLimit = a.timeLimit ∧
    a'.conflictLimit = a.conflictLimit ∧ a'.certified = a.certified := by
  cases h <;> exact ⟨rfl, rfl, rfl⟩

theorem of_satisfiable (h : Advances b r a (.finish .satisfiable) a') :
    r.isOver = false ∧ a'.conflicts = a.conflicts := by
  cases h with
  | found hover m => exact ⟨hover, rfl⟩

theorem ne_timeout (h : Advances b r a out a') (hb : b = .endless) : out ≠ .finish .timeout := by
  rintro rfl
  subst hb
  cases h with
  | exhausted hnone => simp [Budget.exhausted, Budget.endless] at hnone
  | stopped hover hnone => simp [Budget.exhausted, Budget.endless] at hnone

end Advances

namespace Solver

def account (s : Solver) : Account where
  timeLimit := s.timeLimit
  conflictLimit := s.conflictLimit
  certified := s.certificate.isSome
  intervals := s.restarts
  conflicts := s.stats.conflicts
  restarts := s.stats.restarts
  model := s.model

/-- The account and the shape of the order. -/
def outline (s : Solver) : Account × Order.Shape := (s.account, s.order.shape)

/-- No limit is set. -/
structure Unlimited (s : Solver) : Prop where
  time : s.timeLimit = none
  conflicts : s.conflictLimit = none

/-- The limits are as before, and no certificate was started. -/
structure Retains (s s' : Solver) : Prop where
  time : s'.timeLimit = s.timeLimit
  conflicts : s'.conflictLimit = s.conflictLimit
  certificate : s.certificate = none → s'.certificate = none

variable {s s' s'' : Solver} {conflict ref : ClauseRef} {e : Stored}
  {l : Literal} {ls A : List Literal} {n fuel : Nat} {t : Trail} {rest : List (ClauseRef × Stored)}
  {id : Option ClauseId} {a : Analysis} {b : Budget} {r : Round} {out : Outcome} {v : Verdict}
  {raws : List Int} {added : Added} {c c' : Certificate}

theorem Retains.refl (s : Solver) : s.Retains s := ⟨rfl, rfl, fun h => h⟩

theorem Retains.trans (h : s.Retains s') (h' : s'.Retains s'') : s.Retains s'' where
  time := h'.time.trans h.time
  conflicts := h'.conflicts.trans h.conflicts
  certificate := fun hno => h'.certificate (h.certificate hno)

theorem Retains.start {s₁ : Solver} (h : s₁.Retains s') (htime : s₁.timeLimit = s.timeLimit)
    (hconflicts : s₁.conflictLimit = s.conflictLimit)
    (hcertificate : s₁.certificate = s.certificate) : s.Retains s' :=
  .trans ⟨htime, hconflicts, hcertificate.trans⟩ h

theorem Retains.of_frame (h : s'.account.timeLimit = s.account.timeLimit ∧
    s'.account.conflictLimit = s.account.conflictLimit ∧
    s'.account.certified = s.account.certified) : s.Retains s' := by
  obtain ⟨htime, hconflicts, hcertified⟩ := h
  refine ⟨htime, hconflicts, fun hno => ?_⟩
  have hnone : s'.certificate.isSome = false := hcertified.trans (by rw [account, hno]; rfl)
  simpa using hnone

theorem Retains.of_account (h : s'.account = s.account) : s.Retains s' :=
  .of_frame ⟨by rw [h], by rw [h], by rw [h]⟩

theorem Retains.unlimited (h : s.Retains s') (hs : s.Unlimited) : s'.Unlimited :=
  ⟨h.time.trans hs.time, h.conflicts.trans hs.conflicts⟩

theorem Retains.sized (h : s.Retains s') (hnum : s'.numVars = s.numVars) (hs : s.Sized) :
    s'.Sized where
  signed := hnum ▸ hs.signed
  recorded := fun hsome => hnum ▸ hs.recorded fun hno => hsome (h.certificate hno)

theorem account_of_outline (h : s'.outline = s.outline) : s'.account = s.account :=
  congrArg Prod.fst h

theorem shape_of_outline (h : s'.outline = s.outline) : s'.order.shape = s.order.shape :=
  congrArg Prod.snd h

/-! ## Changes to the parts -/

theorem outline_setCertificate (hc : s.certificate = some c) (old : Log) :
    (s.setCertificate old c').outline = s.outline := by
  unfold outline account
  rw [hc]
  rfl

theorem Bumps.outline (hb : Bumps s s') : s'.outline = s.outline := by
  obtain ⟨store, inc, -, rfl⟩ := hb
  rfl

theorem outline_certify {step : Certificate → Except Fault Certificate}
    (hr : s.certify step = .ok s') : s'.outline = s.outline := by
  obtain ⟨-, ⟨-, rfl⟩ | ⟨c, c', hc, -, rfl⟩⟩ := certify_eq_ok hr
  · rfl
  · exact outline_setCertificate hc c.log

theorem outline_certifyClause {step : Certificate → Except Fault (ClauseId × Certificate)}
    (hr : s.certifyClause step = .ok (id, s')) : s'.outline = s.outline := by
  obtain ⟨-, ⟨-, rfl⟩ | ⟨c, c', i, hc, -, -, rfl⟩⟩ := certifyClause_eq_ok hr
  · rfl
  · exact outline_setCertificate hc c.log

theorem outline_propagate {o : Option ClauseRef} (hr : s.propagate = .ok (o, s')) :
    s'.outline = s.outline := by
  obtain ⟨⟨o, k⟩, -, hr⟩ := bind_eq_ok_iff.1 hr
  obtain ⟨-, rfl⟩ := Prod.mk.inj (Except.ok.inj hr)
  rfl

theorem account_propagate {o : Option ClauseRef} (hr : s.propagate = .ok (o, s')) :
    s'.account = s.account := account_of_outline (outline_propagate hr)

theorem outline_backtrack (hr : s.backtrack n = .ok s') : s'.outline = s.outline := by
  obtain ⟨o, ho, rfl⟩ := backtrack_eq_ok hr
  exact Prod.ext rfl (Order.shape_undoAll ho)

theorem account_backtrack (hr : s.backtrack n = .ok s') : s'.account = s.account :=
  account_of_outline (outline_backtrack hr)

theorem outline_assert {reason : Option ClauseRef} {f : Fault} (hr : s.assert l reason f = .ok s') :
    s'.outline = s.outline := by
  obtain ⟨rfl, -⟩ | ⟨rfl, -⟩ := assert_eq_ok hr <;> rfl

theorem outline_insertConstraint (hr : s.insertConstraint e = .ok (ref, s')) :
    s'.outline = s.outline := by
  obtain ⟨-, w, -, rfl⟩ := insertConstraint_eq_ok hr
  rfl

theorem outline_removeConstraint (hr : s.removeConstraint ref = .ok s') :
    s'.outline = s.outline := by
  unfold removeConstraint at hr
  split at hr
  · exact Except.ok.inj hr ▸ rfl
  · obtain ⟨k, -, hr⟩ := bind_eq_ok_iff.1 hr
    obtain ⟨s₁, hs₁, hr⟩ := bind_eq_ok_iff.1 hr
    obtain ⟨s₂, hs₂, hr⟩ := bind_eq_ok_iff.1 hr
    obtain rfl := Except.ok.inj hr
    obtain ⟨known, size, -, -, rfl⟩ := strikeOff_eq_ok hs₂
    have h₁ := outline_certify hs₁
    exact h₁

theorem outline_rootConflict (hr : s.rootConflict conflict = .ok s') : s'.outline = s.outline := by
  obtain ⟨s₁, hs₁, hr⟩ := bind_eq_ok_iff.1 hr
  obtain ⟨e, -, hr⟩ := bind_eq_ok_iff.1 hr
  obtain ⟨⟨id, s₂⟩, hs₂, hr⟩ := bind_eq_ok_iff.1 hr
  obtain rfl := Except.ok.inj hr
  refine Eq.trans ?_ ((outline_certifyClause hs₂).trans (outline_certify hs₁))
  cases id <;> rfl

/-! ## Removing constraints -/

theorem outline_removeInactive {extra : Float} {quota : Nat}
    (hr : s.removeInactive extra quota rest = .ok s') : s'.outline = s.outline := by
  induction rest generalizing s quota with
  | nil => exact Except.ok.inj hr ▸ rfl
  | cons x rest ih =>
    rcases removeInactive_cons hr with hr | ⟨-, s₁, hs₁, hr⟩
    · exact (ih hr).trans rfl
    · exact (ih hr).trans (outline_removeConstraint hs₁)

theorem outline_reduce (hr : s.reduce = .ok s') : s'.outline = s.outline := by
  obtain ⟨entries, -, hr⟩ := bind_eq_ok_iff.1 hr
  obtain ⟨s₁, hs₁, hr⟩ := bind_eq_ok_iff.1 hr
  obtain rfl := Except.ok.inj hr
  have h₁ := outline_removeInactive hs₁
  exact h₁

theorem outline_removeRedundant (hr : s.removeRedundant rest = .ok s') :
    s'.outline = s.outline := by
  induction rest generalizing s with
  | nil => exact Except.ok.inj hr ▸ rfl
  | cons x rest ih =>
    obtain ⟨t, -, hr⟩ := bind_eq_ok_iff.1 hr
    obtain ⟨s₁, hs₁, hr⟩ := bind_eq_ok_iff.1 hr
    have h₁ := outline_removeConstraint hs₁
    exact (ih hr).trans h₁

theorem outline_simplify (hr : s.simplify = .ok s') : s'.outline = s.outline := by
  unfold simplify at hr
  split at hr
  · exact Except.ok.inj hr ▸ rfl
  · obtain ⟨found, -, hr⟩ := bind_eq_ok_iff.1 hr
    obtain ⟨s₁, hs₁, hr⟩ := bind_eq_ok_iff.1 hr
    obtain rfl := Except.ok.inj hr
    have h₁ := outline_removeRedundant hs₁
    exact h₁

/-! ## Searching -/

theorem outline_analyze (hr : s.analyze conflict = .ok (a, id, s')) : s'.outline = s.outline := by
  obtain ⟨⟨a₁, analyzer⟩, -, hr⟩ := bind_eq_ok_iff.1 hr
  obtain ⟨order, horder, hr⟩ := bind_eq_ok_iff.1 hr
  obtain ⟨-, -, hr⟩ := bind_eq_ok_iff.1 hr
  obtain ⟨⟨id₁, s₁⟩, hs₁, hr⟩ := bind_eq_ok_iff.1 hr
  obtain ⟨-, hpair⟩ := Prod.mk.inj (Except.ok.inj hr)
  obtain ⟨-, rfl⟩ := Prod.mk.inj hpair
  have hbumped : outline ({ s with analyzer }.setOrder order) = s.outline :=
    Prod.ext rfl (Order.shape_bumpAll horder)
  have h₁ := (outline_certifyClause hs₁).trans hbumped
  exact h₁

theorem outline_learn (hr : s.learn a id = .ok s') : s'.outline = s.outline := by
  obtain ⟨s₁, hs₁, hr⟩ := bind_eq_ok_iff.1 hr
  obtain ⟨s₂, hs₂, hr⟩ := bind_eq_ok_iff.1 hr
  refine Eq.trans ?_ ((outline_backtrack hs₂).trans (bumpLearnts_eq_ok hs₁).outline)
  split at hr
  · exact Except.ok.inj hr ▸ rfl
  · obtain ⟨s₃, hs₃, hr⟩ := bind_eq_ok_iff.1 hr
    obtain ⟨s₄, hs₄, hr⟩ := bind_eq_ok_iff.1 hr
    obtain rfl := Except.ok.inj hr
    exact (outline_certify hs₄).trans (outline_assert hs₃)
  · obtain ⟨c, -, hr⟩ := bind_eq_ok_iff.1 hr
    obtain ⟨⟨ref, s₃⟩, hs₃, hr⟩ := bind_eq_ok_iff.1 hr
    obtain ⟨s₄, hs₄, hr⟩ := bind_eq_ok_iff.1 hr
    obtain ⟨s₅, hs₅, hr⟩ := bind_eq_ok_iff.1 hr
    obtain rfl := Except.ok.inj hr
    have hkept : s₄.outline = s₃.outline := (bumpClause_eq_ok hs₄).outline
    exact (outline_assert hs₅).trans (hkept.trans (outline_insertConstraint hs₃))

theorem outline_settle (hr : s.settle = .ok s') : s'.outline = s.outline := by
  unfold settle at hr
  split at hr
  · obtain ⟨s₁, hs₁, hr⟩ := bind_eq_ok_iff.1 hr
    exact (outline_simplify hr).trans (outline_certify hs₁)
  · exact Except.ok.inj hr ▸ rfl

theorem outline_thin (hr : s.thin = .ok s') : s'.outline = s.outline := by
  unfold thin at hr
  split at hr
  · exact outline_reduce hr
  · exact Except.ok.inj hr ▸ rfl

theorem onConflict_advances (hr : onConflict b r conflict s = .ok (out, s')) :
    Advances b r s.account out s'.account ∧ s'.stats.conflicts = s.stats.conflicts + 1 := by
  unfold onConflict at hr
  dsimp only at hr
  split at hr
  · obtain ⟨s₁, hs₁, hr⟩ := bind_eq_ok_iff.1 hr
    obtain ⟨rfl, rfl⟩ := Prod.mk.inj (Except.ok.inj hr)
    have h₁ := account_of_outline (outline_rootConflict hs₁)
    exact ⟨h₁ ▸ .refuted, congrArg Account.conflicts h₁⟩
  · obtain ⟨⟨a, id, s₁⟩, hs₁, hr⟩ := bind_eq_ok_iff.1 hr
    obtain ⟨s₂, hs₂, hr⟩ := bind_eq_ok_iff.1 hr
    have h₂ : s₂.account = { s.account with conflicts := s.stats.conflicts + 1 } :=
      account_of_outline ((outline_learn hs₂).trans (outline_analyze hs₁))
    have hcount : s₂.stats.conflicts = s.stats.conflicts + 1 := congrArg Account.conflicts h₂
    rw [hcount] at hr
    split at hr
    · next hnone =>
      obtain ⟨rfl, rfl⟩ := Prod.mk.inj (Except.ok.inj hr)
      refine ⟨?_, hcount⟩
      change Advances b r s.account _ s₂.account
      rw [h₂]
      exact .exhausted hnone
    · next hleft =>
      obtain ⟨rfl, rfl⟩ := Prod.mk.inj (Except.ok.inj hr)
      refine ⟨?_, hcount⟩
      change Advances b r s.account _ s₂.account
      rw [h₂]
      exact .learnt (Bool.eq_false_iff.2 hleft)

theorem restart_advances (hover : r.isOver = true) (hr : restart b s = .ok (out, s')) :
    Advances b r s.account out s'.account := by
  obtain ⟨s₁, hs₁, hr⟩ := bind_eq_ok_iff.1 hr
  rw [← account_backtrack hs₁]
  dsimp only at hr
  split at hr
  · next hnone =>
    obtain ⟨rfl, rfl⟩ := Prod.mk.inj (Except.ok.inj hr)
    exact .stopped hover hnone
  · next hleft =>
    obtain ⟨⟨interval, restarts⟩, hnext, hr⟩ := bind_eq_ok_iff.1 hr
    obtain ⟨rfl, rfl⟩ := Prod.mk.inj (Except.ok.inj hr)
    exact .restarted hover (Bool.eq_false_iff.2 hleft) hnext

theorem decideOn_advances (hover : r.isOver = false) (hr : decideOn r l s = .ok (out, s')) :
    Advances b r s.account out s'.account := by
  obtain ⟨t, -, hr⟩ := bind_eq_ok_iff.1 hr
  obtain ⟨rfl, rfl⟩ := Prod.mk.inj (Except.ok.inj hr)
  exact .decided hover

theorem choose_advances (hover : r.isOver = false) (hr : choose A r s = .ok (out, s')) :
    Advances b r s.account out s'.account := by
  unfold choose at hr
  split at hr
  · obtain ⟨⟨picked, order⟩, -, hr⟩ := bind_eq_ok_iff.1 hr
    cases picked with
    | none =>
      obtain ⟨rfl, rfl⟩ := Prod.mk.inj (Except.ok.inj hr)
      exact .found hover _
    | some l =>
      have hdecided := decideOn_advances (b := b) hover hr
      exact hdecided
  · obtain ⟨sat, -, hr⟩ := bind_eq_ok_iff.1 hr
    split at hr
    · obtain ⟨rfl, rfl⟩ := Prod.mk.inj (Except.ok.inj hr)
      exact .decided hover
    · obtain ⟨fals, -, hr⟩ := bind_eq_ok_iff.1 hr
      split at hr
      · obtain ⟨rfl, rfl⟩ := Prod.mk.inj (Except.ok.inj hr)
        exact .failed hover
      · exact decideOn_advances hover hr

theorem onFixpoint_advances (hr : onFixpoint b A r s = .ok (out, s')) :
    Advances b r s.account out s'.account := by
  rw [onFixpoint_eq] at hr
  obtain ⟨s₁, hs₁, hr⟩ := bind_eq_ok_iff.1 hr
  rw [← account_of_outline (outline_settle hs₁)]
  split at hr
  · next hover => exact restart_advances hover hr
  · next hover =>
    obtain ⟨s₂, hs₂, hr⟩ := bind_eq_ok_iff.1 hr
    rw [← account_of_outline (outline_thin hs₂)]
    exact choose_advances (by simpa using hover) hr

/-- What a step does to the account. -/
theorem step_advances (hr : step b A r s = .ok (out, s')) :
    Advances b r s.account out s'.account := by
  obtain ⟨⟨conflict, s₁⟩, hs₁, hr⟩ := bind_eq_ok_iff.1 hr
  rw [← account_propagate hs₁]
  cases conflict with
  | some ref => exact (onConflict_advances hr).1
  | none => exact onFixpoint_advances hr

/-! ## The shape of the order -/

theorem shape_onConflict (hr : onConflict b r conflict s = .ok (out, s')) :
    s'.order.shape = s.order.shape := by
  unfold onConflict at hr
  dsimp only at hr
  split at hr
  · obtain ⟨s₁, hs₁, hr⟩ := bind_eq_ok_iff.1 hr
    obtain ⟨-, rfl⟩ := Prod.mk.inj (Except.ok.inj hr)
    have h₁ := shape_of_outline (outline_rootConflict hs₁)
    exact h₁
  · obtain ⟨⟨a, id, s₁⟩, hs₁, hr⟩ := bind_eq_ok_iff.1 hr
    obtain ⟨s₂, hs₂, hr⟩ := bind_eq_ok_iff.1 hr
    have h₂ := shape_of_outline ((outline_learn hs₂).trans (outline_analyze hs₁))
    have hdecayed : s₂.order.decayed.shape = s.order.shape := (Order.shape_decayed s₂.order).trans h₂
    split at hr
    · obtain ⟨-, rfl⟩ := Prod.mk.inj (Except.ok.inj hr)
      exact hdecayed
    · obtain ⟨-, rfl⟩ := Prod.mk.inj (Except.ok.inj hr)
      exact hdecayed

theorem shape_restart (hr : restart b s = .ok (out, s')) : s'.order.shape = s.order.shape := by
  obtain ⟨s₁, hs₁, hr⟩ := bind_eq_ok_iff.1 hr
  have h₁ := shape_of_outline (outline_backtrack hs₁)
  dsimp only at hr
  split at hr
  · obtain ⟨-, rfl⟩ := Prod.mk.inj (Except.ok.inj hr)
    exact h₁
  · obtain ⟨⟨interval, restarts⟩, -, hr⟩ := bind_eq_ok_iff.1 hr
    obtain ⟨-, rfl⟩ := Prod.mk.inj (Except.ok.inj hr)
    exact h₁

theorem order_decideOn (hr : decideOn r l s = .ok (out, s')) : s'.order = s.order := by
  obtain ⟨t, -, hr⟩ := bind_eq_ok_iff.1 hr
  obtain ⟨-, rfl⟩ := Prod.mk.inj (Except.ok.inj hr)
  rfl

theorem shape_choose (hr : choose A r s = .ok (out, s')) : s'.order.shape = s.order.shape := by
  unfold choose at hr
  split at hr
  · obtain ⟨⟨picked, order⟩, hselect, hr⟩ := bind_eq_ok_iff.1 hr
    have hshape := Order.shape_select hselect
    cases picked with
    | none =>
      obtain ⟨-, rfl⟩ := Prod.mk.inj (Except.ok.inj hr)
      exact hshape
    | some l => exact (congrArg Order.shape (order_decideOn hr)).trans hshape
  · obtain ⟨sat, -, hr⟩ := bind_eq_ok_iff.1 hr
    split at hr
    · obtain ⟨-, rfl⟩ := Prod.mk.inj (Except.ok.inj hr)
      rfl
    · obtain ⟨fals, -, hr⟩ := bind_eq_ok_iff.1 hr
      split at hr
      · obtain ⟨-, rfl⟩ := Prod.mk.inj (Except.ok.inj hr)
        rfl
      · exact congrArg Order.shape (order_decideOn hr)

/-- A step leaves the shape of the order as it is. -/
theorem shape_step (hr : step b A r s = .ok (out, s')) : s'.order.shape = s.order.shape := by
  obtain ⟨⟨conflict, s₁⟩, hs₁, hr⟩ := bind_eq_ok_iff.1 hr
  refine Eq.trans ?_ (shape_of_outline (outline_propagate hs₁))
  cases conflict with
  | some ref => exact shape_onConflict hr
  | none =>
    change onFixpoint b A r s₁ = _ at hr
    rw [onFixpoint_eq] at hr
    obtain ⟨s₂, hs₂, hr⟩ := bind_eq_ok_iff.1 hr
    refine Eq.trans ?_ (shape_of_outline (outline_settle hs₂))
    split at hr
    · exact shape_restart hr
    · obtain ⟨s₃, hs₃, hr⟩ := bind_eq_ok_iff.1 hr
      exact (shape_choose hr).trans (shape_of_outline (outline_thin hs₃))

theorem shape_run (hr : run b A fuel r s = .ok (v, s')) : s'.order.shape = s.order.shape :=
  run_induction (P := fun _ t => t.order.shape = s.order.shape)
    (Q := fun _ t => t.order.shape = s.order.shape) hr rfl (fun h hs₁ => (shape_step hs₁).trans h)
    (fun h hs₁ => (shape_step hs₁).trans h) (fun h => h)

/-! ## Whole searches -/

theorem run_retains (hr : run b A fuel r s = .ok (v, s')) :
    s.Retains s' ∧ (b = .endless → v ≠ .timeout) := by
  refine run_induction (P := fun _ t => s.Retains t)
    (Q := fun v t => s.Retains t ∧ (b = .endless → v ≠ .timeout)) hr (.refl s)
    (fun h hs₁ => h.trans (.of_frame (step_advances hs₁).frame)) (fun h hs₁ => ?_)
    (fun h => ⟨h, by simp⟩)
  have hadvances := step_advances hs₁
  exact ⟨h.trans (.of_frame hadvances.frame),
    fun hb heq => hadvances.ne_timeout hb (heq ▸ rfl)⟩

theorem Unlimited.budget_eq (h : s.Unlimited) : s.budget = .ok .endless := by
  unfold Solver.budget
  rw [h.time, h.conflicts]
  rfl

theorem Unlimited.budget (h : s.Unlimited) (hr : s.budget = .ok b) : b = .endless :=
  (Except.ok.inj (h.budget_eq.symm.trans hr)).symm

theorem solve_eq_of_refuted (h : s.refuted = true) : s.solve fuel raws =
    .ok (.unsatisfiable, { s with model := none }.note .knownUnsatisfiable) := if_pos h

/-- A search without limits does not time out. -/
theorem solve_retains (hr : s.solve fuel raws = .ok (v, s')) :
    s.Retains s' ∧ (s.Unlimited → v ≠ .timeout) := by
  unfold Solver.solve at hr
  dsimp only at hr
  split at hr
  · obtain ⟨rfl, rfl⟩ := Prod.mk.inj (Except.ok.inj hr)
    exact ⟨⟨rfl, rfl, id⟩, by simp⟩
  · obtain ⟨ls, -, hr⟩ := bind_eq_ok_iff.1 hr
    obtain ⟨b, hb, hr⟩ := bind_eq_ok_iff.1 hr
    obtain ⟨⟨interval, restarts⟩, -, hr⟩ := bind_eq_ok_iff.1 hr
    obtain ⟨⟨v₁, s₁⟩, hs₁, hr⟩ := bind_eq_ok_iff.1 hr
    obtain ⟨s₂, hs₂, hr⟩ := bind_eq_ok_iff.1 hr
    obtain ⟨rfl, rfl⟩ := Prod.mk.inj (Except.ok.inj hr)
    obtain ⟨h₁, hv⟩ := run_retains hs₁
    have h₂ : s.Retains s₂ :=
      (h₁.trans (.of_account (account_backtrack hs₂))).start rfl rfl rfl
    exact ⟨h₂.trans (.of_account rfl),
      fun h => hv (Unlimited.budget (s := { s with model := none }) ⟨h.time, h.conflicts⟩ hb)⟩

/-! ## Additions -/

theorem outline_propagateRoot {o : Except SolverError Unit}
    (hr : s.propagateRoot = .ok (o, s')) : s'.outline = s.outline := by
  obtain ⟨⟨conflict, s₁⟩, hs₁, hr⟩ := bind_eq_ok_iff.1 hr
  refine Eq.trans ?_ (outline_propagate hs₁)
  cases conflict with
  | none =>
    obtain ⟨s₂, hs₂, hr⟩ := bind_eq_ok_iff.1 hr
    obtain ⟨-, rfl⟩ := Prod.mk.inj (Except.ok.inj hr)
    exact outline_certify hs₂
  | some ref =>
    obtain ⟨s₂, hs₂, hr⟩ := bind_eq_ok_iff.1 hr
    obtain ⟨-, rfl⟩ := Prod.mk.inj (Except.ok.inj hr)
    exact outline_rootConflict hs₂

theorem outline_assertUnit {o : Except SolverError Unit} (hr : s.assertUnit l id = .ok (o, s')) :
    s'.outline = s.outline := by
  obtain ⟨s₁, hs₁, hr⟩ := bind_eq_ok_iff.1 hr
  obtain ⟨s₂, hs₂, hr⟩ := bind_eq_ok_iff.1 hr
  exact (outline_propagateRoot hr).trans ((outline_certify hs₂).trans (outline_assert hs₁))

theorem outline_assertAll (hr : s.assertAll ls = .ok s') : s'.outline = s.outline := by
  induction ls generalizing s with
  | nil => exact Except.ok.inj hr ▸ rfl
  | cons l ls ih =>
    obtain ⟨s₁, hs₁, hr⟩ := bind_eq_ok_iff.1 hr
    exact (ih hr).trans (outline_assert hs₁)

theorem outline_storeGiven {c : Constraint} {given : List Literal} {what : Handle}
    (hr : s.storeGiven c given = .ok (what, s')) : s'.outline = s.outline := by
  unfold storeGiven at hr
  split at hr
  · obtain ⟨-, rfl⟩ := Prod.mk.inj (Except.ok.inj hr)
    rfl
  · obtain ⟨⟨id, s₁⟩, hs₁, hr⟩ := bind_eq_ok_iff.1 hr
    obtain ⟨⟨ref, s₂⟩, hs₂, hr⟩ := bind_eq_ok_iff.1 hr
    obtain ⟨-, rfl⟩ := Prod.mk.inj (Except.ok.inj hr)
    exact (outline_insertConstraint hs₂).trans (outline_certifyClause hs₁)

theorem outline_addLiterals (hr : s.addLiterals ls = .ok (added, s')) :
    s'.outline = s.outline := by
  unfold addLiterals at hr
  split at hr
  · obtain ⟨-, rfl⟩ := Prod.mk.inj (Except.ok.inj hr)
    rfl
  · obtain ⟨form, -, hr⟩ := bind_eq_ok_iff.1 hr
    split at hr
    · obtain ⟨⟨id, s₁⟩, hs₁, hr⟩ := bind_eq_ok_iff.1 hr
      obtain ⟨-, rfl⟩ := Prod.mk.inj (Except.ok.inj hr)
      have h₁ := outline_certifyClause hs₁
      exact h₁
    · obtain ⟨-, rfl⟩ := Prod.mk.inj (Except.ok.inj hr)
      rfl
    · obtain ⟨⟨id, s₁⟩, hs₁, hr⟩ := bind_eq_ok_iff.1 hr
      obtain ⟨⟨o, s₂⟩, hs₂, hr⟩ := bind_eq_ok_iff.1 hr
      obtain ⟨-, rfl⟩ := Prod.mk.inj (Except.ok.inj hr)
      exact (outline_assertUnit hs₂).trans (outline_certifyClause hs₁)
    · obtain ⟨c, -, hr⟩ := bind_eq_ok_iff.1 hr
      obtain ⟨⟨what, s₁⟩, hs₁, hr⟩ := bind_eq_ok_iff.1 hr
      obtain ⟨-, rfl⟩ := Prod.mk.inj (Except.ok.inj hr)
      exact outline_storeGiven hs₁

theorem outline_addClause (hr : s.addClause raws = .ok (added, s')) : s'.outline = s.outline := by
  obtain ⟨ls, -, hr⟩ := bind_eq_ok_iff.1 hr
  exact outline_addLiterals hr

theorem addClause_retains (hr : s.addClause raws = .ok (added, s')) : s.Retains s' :=
  .of_account (account_of_outline (outline_addClause hr))

theorem outline_addCardinality {degree : Nat} (hr : s.addCardinality ls degree = .ok (added, s')) :
    s'.outline = s.outline := by
  obtain ⟨form, -, hr⟩ := bind_eq_ok_iff.1 hr
  split at hr
  · obtain ⟨-, rfl⟩ := Prod.mk.inj (Except.ok.inj hr)
    rfl
  · obtain ⟨-, rfl⟩ := Prod.mk.inj (Except.ok.inj hr)
    rfl
  · obtain ⟨-, rfl⟩ := Prod.mk.inj (Except.ok.inj hr)
    rfl
  · obtain ⟨s₁, hs₁, hr⟩ := bind_eq_ok_iff.1 hr
    obtain ⟨⟨o, s₂⟩, hs₂, hr⟩ := bind_eq_ok_iff.1 hr
    obtain ⟨-, rfl⟩ := Prod.mk.inj (Except.ok.inj hr)
    exact (outline_propagateRoot hs₂).trans (outline_assertAll hs₁)
  · obtain ⟨⟨o, s₁⟩, hs₁, hr⟩ := bind_eq_ok_iff.1 hr
    obtain ⟨-, rfl⟩ := Prod.mk.inj (Except.ok.inj hr)
    exact outline_assertUnit hs₁
  · obtain ⟨c, -, hr⟩ := bind_eq_ok_iff.1 hr
    obtain ⟨⟨what, s₁⟩, hs₁, hr⟩ := bind_eq_ok_iff.1 hr
    obtain ⟨-, rfl⟩ := Prod.mk.inj (Except.ok.inj hr)
    exact outline_storeGiven hs₁
  · obtain ⟨c, -, hr⟩ := bind_eq_ok_iff.1 hr
    obtain ⟨⟨what, s₁⟩, hs₁, hr⟩ := bind_eq_ok_iff.1 hr
    obtain ⟨-, rfl⟩ := Prod.mk.inj (Except.ok.inj hr)
    exact outline_storeGiven hs₁

theorem outline_addAtLeast {degree : Nat} (hr : s.addAtLeast raws degree = .ok (added, s')) :
    s'.outline = s.outline := by
  obtain ⟨ls, -, hr⟩ := bind_eq_ok_iff.1 hr
  split at hr
  · obtain ⟨-, rfl⟩ := Prod.mk.inj (Except.ok.inj hr)
    rfl
  · split at hr
    · split at hr
      · obtain ⟨-, rfl⟩ := Prod.mk.inj (Except.ok.inj hr)
        rfl
      · exact outline_addLiterals hr
      · obtain ⟨-, rfl⟩ := Prod.mk.inj (Except.ok.inj hr)
        rfl
    · exact outline_addCardinality hr

theorem addAtLeast_retains {degree : Nat} (hr : s.addAtLeast raws degree = .ok (added, s')) :
    s.Retains s' := .of_account (account_of_outline (outline_addAtLeast hr))

theorem newVars_retains {count : Nat} (hr : s.newVars count = .ok s') : s.Retains s' := by
  refine .of_account ?_
  obtain ⟨⟨first, k⟩, -, hr⟩ := bind_eq_ok_iff.1 hr
  dsimp only at hr
  split at hr
  · obtain rfl := Except.ok.inj hr
    rfl
  · obtain ⟨analyzer, -, hr⟩ := bind_eq_ok_iff.1 hr
    obtain ⟨s₁, hs₁, hr⟩ := bind_eq_ok_iff.1 hr
    obtain ⟨o, -, hr⟩ := bind_eq_ok_iff.1 hr
    obtain rfl := Except.ok.inj hr
    have h₁ := account_of_outline (outline_certify hs₁)
    exact h₁

end Solver
end Cdcl
