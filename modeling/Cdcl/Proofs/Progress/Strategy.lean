import Cdcl.Proofs.Progress.Reachable

/-!
# Searches under any strategy

A search leaves two things to a `Strategy`: which learnt clauses it gives up before a decision, and
which literal the decision is on. `runBy` is a search under strategies that may change with every
round, and the solver's own searches are the ones under `Strategy.own` (`run_eq_runBy`). Under
`Strategy.free` any choices will do: any learnt clauses that are no reasons are given up, and decisions
are on any unassigned literals. Both are `Strategy.Allowed`, and under allowed strategies a search
keeps what the solver's own searches keep (`Searching.stepBy`). So solvers that such searches lead to
stand as well (`Attained.standing`).
-/

namespace Cdcl
set_option autoImplicit false

/-- What a search leaves open. -/
structure Strategy where
  /-- Gives up learnt clauses. -/
  thin : Solver → Except Fault Solver
  /-- The literal to decide on, none to end the search, and the order after it was taken. -/
  pick : Solver → Except Fault (Option Literal × Order)

/-- The strategy of the solver itself: it gives up inactive clauses once there are too many, and its
order offers the literals. -/
def Strategy.own : Strategy := ⟨Solver.thin, fun s => s.order.select s.trail⟩

namespace Solver

/-! ## Rounds -/

def branchBy (σ : Strategy) (r : Round) (s : Solver) : Except Fault (Outcome × Solver) := do
  let (picked, order) ← σ.pick s
  let s := { s with order }
  match picked with
  | none => .ok (.finish .satisfiable, { s with model := some s.trail.model })
  | some l =>
    decideOn r l { s with stats := { s.stats with decisions := s.stats.decisions + 1 } }

/-- Decides on the assumption of the level to come, or else on the literal of a strategy. -/
def chooseBy (σ : Strategy) (A : List Literal) (r : Round) (s : Solver) :
    Except Fault (Outcome × Solver) :=
  match A[s.trail.level]? with
  | none => branchBy σ r s
  | some _ => choose A r s

def stepBy (b : Budget) (σ : Strategy) (A : List Literal) (r : Round) (s : Solver) :
    Except Fault (Outcome × Solver) := do
  match ← s.propagate with
  | (some conflict, s) => onConflict b r conflict s
  | (none, s) => do
    let s ← s.settle
    if r.isOver then restart b s
    else do
      let s ← σ.thin s
      chooseBy σ A r s

/-- Repeats rounds of a search under a strategy for each round, at most `fuel` times. -/
def runBy (b : Budget) (A : List Literal) : Nat → (Nat → Strategy) → Round → Solver →
    Except Fault (Verdict × Solver)
  | 0, _, _, s => .ok (.unfinished, s)
  | fuel + 1, σ, r, s => do
    match ← stepBy b (σ 0) A r s with
    | (.finish v, s) => .ok (v, s)
    | (.goOn r, s) => runBy b A fuel (fun i => σ (i + 1)) r s

def solveBy (σ : Nat → Strategy) (s : Solver) (fuel : Nat) (assumptions : List Int) :
    Except Fault (Verdict × Solver) :=
  if s.refuted then .ok (.unsatisfiable, { s with model := none }.note .knownUnsatisfiable)
  else do
    let ls ← s.literals assumptions
    let b ← s.budget
    let (interval, restarts) ← s.restarts.next
    let (v, s) ← runBy b ls fuel σ { interval } (s.atStart ls.length restarts)
    let s ← s.backtrack 0
    .ok (v, (s.note (verdictNotice v)).note (.counted s.statistics))

variable {s s' s₁ : Solver} {F : Formula} {A : List Literal} {b : Budget} {r : Round} {out : Outcome}
  {v : Verdict} {n m fuel : Nat} {rest : List (ClauseRef × Stored)} {l : Literal} {σ : Strategy}
  {raws : List Int} {conflict : ClauseRef}

theorem choose_eq_chooseBy : choose A r s = chooseBy .own A r s := by
  unfold chooseBy
  split
  · next hnone =>
    unfold choose
    rw [hnone]
    rfl
  · rfl

theorem step_eq_stepBy : step b A r s = stepBy b .own A r s := by
  refine bind_congr fun x => ?_
  obtain ⟨_ | conflict, s₁⟩ := x
  · refine onFixpoint_eq.trans (bind_congr fun s₂ => ?_)
    split
    · rfl
    · exact bind_congr fun s₃ => choose_eq_chooseBy
  · rfl

theorem run_eq_runBy : run b A fuel r s = runBy b A fuel (fun _ => .own) r s := by
  induction fuel generalizing s r with
  | zero => rfl
  | succ fuel ih =>
    unfold run runBy
    rw [step_eq_stepBy]
    refine bind_congr fun x => ?_
    obtain ⟨_ | _, s₁⟩ := x
    · exact ih
    · rfl

theorem solve_eq_solveBy : s.solve fuel raws = s.solveBy (fun _ => .own) fuel raws := by
  unfold solveBy
  by_cases hrefuted : s.refuted = true
  · rw [if_pos hrefuted]
    exact if_pos hrefuted
  · rw [if_neg hrefuted, solve_eq (by simpa using hrefuted)]
    simp only [run_eq_runBy]

/-- Unless it comes to a choice, the strategy does not matter. -/
theorem stepBy_of_conflict (h : s.propagate = .ok (some conflict, s₁)) :
    stepBy b σ A r s = step b A r s := by
  unfold stepBy step
  rw [h]
  rfl

theorem stepBy_of_over (hover : r.isOver = true) : stepBy b σ A r s = step b A r s := by
  rw [step_eq_stepBy]
  refine bind_congr fun x => ?_
  obtain ⟨_ | conflict, s₁⟩ := x
  · refine bind_congr fun s₂ => ?_
    rw [if_pos hover, if_pos hover]
  · rfl

/-! ## Free choices -/

/-- Goes through learnt clauses and removes those that are to go, unless they are reasons. -/
def discard (gone : ClauseRef → Bool) (s : Solver) : List (ClauseRef × Stored) → Except Fault Solver
  | [] => .ok s
  | (ref, e) :: rest => do
    let locked ← e.constraint.isLocked ref s.trail
    if gone ref && !locked then do
      let s ← s.removeConstraint ref
      s.discard gone rest
    else (s.keepLearnt ref).discard gone rest

end Solver

/-- Choices of a search: which learnt clauses are to go, in which order the others are kept, and which
literal the decision is on. -/
structure Choices where
  gone : Solver → ClauseRef → Bool
  before : Solver → ClauseRef × Stored → ClauseRef × Stored → Bool
  pick : Solver → Option Literal

/-- Decisions are on unassigned literals. -/
def Choices.Proper (c : Choices) : Prop :=
  ∀ s l, c.pick s = some l → s.trail.Names l ∧ s.trail.mark? l.var = none

def Strategy.free (c : Choices) : Strategy where
  thin s := do
    let entries ← Solver.entriesOf s.store s.learnts
    { s with learnts := [] }.discard (c.gone s) (entries.mergeSort (c.before s))
  pick s := .ok (c.pick s, s.order)

/-! ## Allowed strategies -/

/-- What a strategy has to do: giving up clauses leaves a search where it is, and a decision is on an
unassigned literal, with the other unassigned ones left in the order. -/
structure Strategy.Allowed (σ : Strategy) (F : Formula) (A : List Literal) : Prop where
  thin : ∀ s, s.Searching F A → ∃ s', σ.thin s = .ok s' ∧ s'.Searching F A ∧ s'.trail = s.trail ∧
    s'.pace = s.pace
  pick : ∀ s, s.Searching F A → ∃ picked order, σ.pick s = .ok (picked, order) ∧
    order.Room s.numVars ∧
    (order.Offers s.trail.vars fun v => s.trail.mark? v = none ∧ ∀ l, picked = some l → v ≠ l.var) ∧
    ∀ l, picked = some l → s.trail.Names l ∧ s.trail.mark? l.var = none

namespace Solver

variable {s s' s₁ : Solver} {F : Formula} {A : List Literal} {b : Budget} {r : Round} {out : Outcome}
  {v : Verdict} {n m fuel : Nat} {rest : List (ClauseRef × Stored)} {l : Literal} {σ : Strategy}
  {raws : List Int} {conflict : ClauseRef}

theorem Searching.keep (h : s.Searching F A) (hsane : s'.Sane F) (he : s'.Equipped)
    (hA : s'.trail.Assumes A) (hnum : s'.numVars = s.numVars) : s'.Searching F A :=
  ⟨hsane, he, hnum ▸ h.vars, hA, fun l hl =>
    ⟨(h.names l hl).1, Nat.le_trans (h.names l hl).2 (Nat.le_of_eq hnum.symm)⟩⟩

theorem Searching.signed (h : s.Searching F A) : s.numVars < Var.signedLimit :=
  Nat.lt_trans h.vars (by decide)

theorem Searching.valid (h : s.Searching F A) : s.trail.Valid := h.sane.ready.sound.trail

theorem Searching.standing (h : s.Searching F A) : s.Standing :=
  ⟨h.vars, Or.inl ⟨F, h.sane, h.equipped⟩⟩

theorem Thins.discard (h : s.Thins F m rest) (he : s.Equipped) (gone : ClauseRef → Bool) :
    ∃ s', s.discard gone rest = .ok s' ∧ s'.Thins F m [] ∧ s'.Equipped ∧ s'.trail = s.trail ∧
      s'.pace = s.pace := by
  induction rest generalizing s with
  | nil => exact ⟨s, rfl, h, he, rfl, rfl⟩
  | cons x rest ih =>
    obtain ⟨ref, e⟩ := x
    obtain ⟨locked, hlocked⟩ : ∃ b, e.constraint.isLocked ref s.trail = .ok b :=
      Constraint.isLocked_succeeds h.firm.sound.trail
        (h.firm.sound.named (h.stored _ List.mem_cons_self))
    rw [Solver.discard, hlocked]
    change ∃ s', (if gone ref && !locked then _ else _) = _ ∧ _
    split
    · next hgo =>
      obtain rfl : locked = false := by simpa using (Bool.and_eq_true_iff.1 hgo).2
      obtain ⟨_, hremove, he₁⟩ :=
        Supplied.removeConstraint he (h.keeps.of_eq rfl rfl rfl rfl rfl rfl rfl h.keeps.calm)
          h.firm.sound ref
      rw [removeConstraint_paced] at hremove
      obtain ⟨s₁, hs₁, rfl⟩ := map_eq_ok_iff.1 hremove
      obtain ⟨h₁, htrail₁, -⟩ := h.remove hlocked hs₁
      obtain ⟨s', hs', h', he', htrail', hpace'⟩ := ih h₁ he₁
      exact ⟨s', bind_eq_ok_iff.2 ⟨s₁, hs₁, hs'⟩, h', he', htrail'.trans htrail₁,
        hpace'.trans (pace_eq_of_map (removeConstraint_paced (s := s)) hs₁)⟩
    · exact ih (s := s.keepLearnt ref) h.keep (he.of_eq rfl rfl rfl rfl rfl)

end Solver

open Solver

variable {F : Formula} {A : List Literal} {c : Choices}

theorem Strategy.own_allowed : Strategy.own.Allowed F A where
  thin := by
    intro s h
    obtain ⟨_, hthin, he⟩ := Supplied.thin h.equipped h.sane.paced
    rw [thin_paced] at hthin
    obtain ⟨s', hs', rfl⟩ := map_eq_ok_iff.1 hthin
    obtain ⟨hsane, htrail⟩ := h.sane.thin hs'
    exact ⟨s', hs', h.keep hsane he (htrail ▸ h.assumes) (congrArg Trail.vars htrail), htrail,
      pace_eq_of_map (thin_paced (s := s)) hs'⟩
  pick := by
    intro s h
    obtain ⟨picked, order, hpick, hroom⟩ :=
      h.equipped.order.select h.valid h.signed h.sane.keeps.covers
    have hpicks := Order.select_eq_ok h.sane.keeps.covers h.signed hpick
    refine ⟨picked, order, hpick, hroom, ?_⟩
    cases picked with
    | none => exact ⟨Order.Offers.mono hpicks.2 fun v hv => hv.1, by simp⟩
    | some l =>
      obtain ⟨hnone, hname, ho⟩ := hpicks
      refine ⟨Order.Offers.mono ho fun v hv => ⟨hv.1, hv.2 l rfl⟩, ?_⟩
      rintro _ ⟨⟩
      exact ⟨hname, hnone⟩

theorem Strategy.free_allowed (hc : c.Proper) : (Strategy.free c).Allowed F A where
  thin := by
    intro s h
    obtain ⟨entries, hentries⟩ := entriesOf_succeeds fun ref href =>
      (h.sane.lists.stored ref href).imp fun _ he => he.1
    have hall : Thins { s with learnts := [] } F _ (entries.mergeSort (c.before s)) :=
      h.sane.keeps.thins h.sane.ready h.sane.lists hentries
    obtain ⟨s', hs', hthins, he, htrail, hpace⟩ :=
      hall.discard (h.equipped.of_eq rfl rfl rfl rfl rfl) (c.gone s)
    have hlists := hthins.lists
    rw [List.map_nil, List.append_nil] at hlists
    have hready : s'.kernel.Ready := by
      have hfirm := hthins.firm
      rw [show s.kernel.trail.level = s'.kernel.trail.level from
        congrArg Trail.level htrail.symm] at hfirm
      exact hfirm
    exact ⟨s', bind_eq_ok_iff.2 ⟨entries, hentries, hs'⟩,
      h.keep ⟨hready, hthins.keeps, hlists⟩ he (htrail ▸ h.assumes) (congrArg Trail.vars htrail),
      htrail, hpace⟩
  pick := by
    intro s h
    exact ⟨c.pick s, s.order, rfl, h.equipped.order,
      Order.Offers.mono h.sane.keeps.covers fun v hv => hv.1, hc s⟩

/-! ## Rounds under allowed strategies -/

namespace Solver

variable {s s' s₁ : Solver} {b : Budget} {r : Round} {out : Outcome} {v : Verdict} {fuel : Nat}
  {l : Literal} {σ : Strategy} {raws : List Int}

/-- What a choice leads to: it opens a level, for an assumption that holds or with an unassigned
literal, or it ends the search. -/
def Chosen (s : Solver) (F : Formula) (A : List Literal) (r : Round) : Outcome × Solver → Prop
  | (.goOn r', s') => r' = r ∧ s'.Searching F A ∧
      ((s.trail.level < A.length ∧ s'.trail = s.trail.openLevel) ∨
        ∃ l, s.trail.Names l ∧ s.trail.mark? l.var = none ∧
          s'.trail = s.trail.openLevel.push l none)
  | (.finish v, s') => (v = .satisfiable ∨ v = .unsatisfiable) ∧ s'.Standing

theorem Searching.propagate (h : s.Searching F A) : ∃ conflict s₁,
    s.propagate = .ok (conflict, s₁) ∧ (s₁.paced .free).Ample 0 ∧
      s₁.certificate = s.certificate := by
  obtain ⟨_, _, hfree, hample, hcertificate⟩ := Ample.propagate h.equipped.toAmple h.sane.ready
  rw [propagate_paced] at hfree
  obtain ⟨⟨_, s₁⟩, hs₁, hpair⟩ := map_eq_ok_iff.1 hfree
  obtain ⟨rfl, rfl⟩ := Prod.mk.inj hpair
  exact ⟨_, s₁, hs₁, hample, hcertificate⟩

/-- Once nothing is left to propagate, the search settles where it is. -/
theorem Searching.settle (h : s.Searching F A) (hs₁ : s.propagate = .ok (none, s₁)) :
    ∃ s₂, s₁.settle = .ok s₂ ∧ s₂.Searching F A ∧ s₂.trail.head = s₂.trail.literals.size ∧
      s.trail.Extends s₁.trail ∧ s₁.trail.Forgets s₂.trail ∧ s₂.pace = s.pace := by
  obtain ⟨hkeeps₁, hends, hlists₁, hext⟩ := h.sane.propagate hs₁
  obtain ⟨_, _, hsame, hample, hcertificate⟩ := h.propagate
  obtain ⟨rfl, rfl⟩ := Prod.mk.inj (Except.ok.inj (hs₁.symm.trans hsame))
  have hsane₁ : s₁.Sane F := ⟨hends.1, hkeeps₁, hlists₁⟩
  obtain ⟨_, hset, he₂⟩ := hample.settle hsane₁.paced hext fun c hc =>
    h.equipped.complete h.sane.keeps.undecided c (hcertificate ▸ hc)
  rw [settle_paced] at hset
  obtain ⟨s₂, hs₂, rfl⟩ := map_eq_ok_iff.1 hset
  obtain ⟨hsane₂, hforgets⟩ := hsane₁.settle hs₂
  refine ⟨s₂, hs₂, h.keep hsane₂ he₂ ((h.assumes.of_extends hext).of_forgets hforgets)
    (hforgets.vars.trans hext.vars), ?_, hext, hforgets, ?_⟩
  · rw [hforgets.head, hforgets.literals]
    exact hends.2
  · have hpace₁ : s₁.pace = s.pace := pace_eq_of_map_snd propagate_paced hs₁
    have hpace₂ : s₂.pace = s₁.pace := pace_eq_of_map (settle_paced (s := s₁)) hs₂
    exact hpace₂.trans hpace₁

/-- A level is opened with an unassigned literal, which the order may have given up before. -/
theorem Searching.decideOn {o : Order} (h : s.Searching F A)
    (hhead : s.trail.head = s.trail.literals.size) (hname : s.trail.Names l)
    (hnone : s.trail.mark? l.var = none) (hroom : o.Room s.numVars)
    (ho : o.Offers s.trail.vars fun v => s.trail.mark? v = none ∧ v ≠ l.var)
    (hl : ∀ k, A[s.trail.level]? = some k → k = l) (stats : Statistics) :
    ∃ x, Solver.decideOn r l { s with order := o, stats } = .ok x ∧ s.Chosen F A r x ∧
      x.2.pace = s.pace := by
  obtain ⟨s', hs', htrail, hpace⟩ :
      ∃ s', Solver.decideOn r l { s with order := o, stats } = .ok (.goOn r, s') ∧
        s'.trail = s.trail.openLevel.push l none ∧ s'.pace = s.pace :=
    ⟨_, bind_eq_ok_iff.2 ⟨_, h.valid.decide hname hnone, rfl⟩, rfl, rfl⟩
  obtain ⟨hnum, hsane, hA⟩ := decideOn_eq_ok h.sane hhead ho hname h.assumes hl hs'
  have hsupplied : Supplied (paced { s with order := o, stats } .free) 0 :=
    ⟨{ h.equipped.toAmple with order := hroom }, h.equipped.complete⟩
  obtain ⟨_, _, hsame, he⟩ := hsupplied.decideOn hname hnone r
  rw [decideOn_paced, hs'] at hsame
  obtain ⟨-, rfl⟩ := Prod.mk.inj (Except.ok.inj hsame)
  exact ⟨_, hs', ⟨rfl, h.keep hsane he hA hnum, Or.inr ⟨l, hname, hnone, htrail⟩⟩, hpace⟩

/-- The search ends with a model, or a level is opened with the literal of the strategy. -/
theorem Searching.branchBy (h : s.Searching F A) (hhead : s.trail.head = s.trail.literals.size)
    (hlevel : A[s.trail.level]? = none) (hσ : σ.Allowed F A) :
    ∃ x, Solver.branchBy σ r s = .ok x ∧ s.Chosen F A r x ∧ x.2.pace = s.pace := by
  obtain ⟨picked, order, hpick, hroom, ho, hpicked⟩ := hσ.pick s h
  cases picked with
  | none =>
    have hcovers : order.Covers s.trail := Order.Offers.mono ho fun v hv => ⟨hv, by simp⟩
    have hkeeps := h.sane.keeps.follow (Kernel.Follows.refl _) hcovers
    have hsane : Sane { s with order, model := some s.trail.model } F :=
      ⟨h.sane.ready, hkeeps.of_eq rfl rfl rfl rfl rfl rfl rfl hkeeps.calm, h.sane.lists⟩
    have hequipped : Equipped { s with order, model := some s.trail.model } :=
      ⟨{ h.equipped.toAmple with order := hroom }, h.equipped.complete⟩
    exact ⟨_, bind_eq_ok_iff.2 ⟨_, hpick, rfl⟩,
      ⟨Or.inl rfl, h.vars, Or.inl ⟨F, hsane, hequipped⟩⟩, rfl⟩
  | some l =>
    obtain ⟨hname, hnone⟩ := hpicked l rfl
    obtain ⟨x, hx, hchosen⟩ := h.decideOn (r := r) (o := order) hhead hname hnone hroom
      (Order.Offers.mono ho fun v hv => ⟨hv.1, fun k hk => Option.some.inj hk ▸ hv.2⟩)
      (fun k hk => absurd (hlevel.symm.trans hk) (by simp))
      { s.stats with decisions := s.stats.decisions + 1 }
    exact ⟨x, bind_eq_ok_iff.2 ⟨_, hpick, hx⟩, hchosen⟩

/-- An assumption that holds gets a level of its own. -/
theorem choose_of_holds (ht : s.trail.Valid) (hl : A[s.trail.level]? = some l)
    (hname : s.trail.Names l) (hsat : s.trail.holds l = true) : choose A r s =
      .ok (.goOn r, { s with kernel := { s.kernel with trail := s.trail.openLevel } }) := by
  unfold choose
  rw [hl]
  change s.trail.isSatisfied l >>= _ = _
  rw [ht.isSatisfied hname, hsat]
  rfl

theorem choose_of_not_holds (ht : s.trail.Valid) (hl : A[s.trail.level]? = some l)
    (hname : s.trail.Names l) (hsat : s.trail.holds l = false) : choose A r s =
      if s.trail.holds (-l) then .ok (.finish .unsatisfiable, s.note (.assumptionFails l))
      else Solver.decideOn r l s := by
  unfold choose
  rw [hl]
  change s.trail.isSatisfied l >>= _ = _
  rw [ht.isSatisfied hname, hsat]
  change s.trail.isFalsified l >>= _ = _
  rw [ht.isFalsified hname]
  rfl

theorem Searching.chooseBy (h : s.Searching F A) (hhead : s.trail.head = s.trail.literals.size)
    (hσ : σ.Allowed F A) :
    ∃ x, Solver.chooseBy σ A r s = .ok x ∧ s.Chosen F A r x ∧ x.2.pace = s.pace := by
  unfold Solver.chooseBy
  cases hlevel : A[s.trail.level]? with
  | none => exact h.branchBy hhead hlevel hσ
  | some l =>
    have hname := h.names l (List.mem_of_getElem? hlevel)
    cases hsat : s.trail.holds l with
    | true =>
      have hchoose := choose_of_holds (r := r) h.valid hlevel hname hsat
      obtain ⟨hnum, hsane, hA⟩ := choose_eq_ok h.sane hhead h.signed h.assumes h.names hchoose
      obtain ⟨_, _, hsame, he⟩ := Supplied.choose h.equipped h.sane.paced.keeps h.signed h.names r
      rw [choose_paced, hchoose] at hsame
      obtain ⟨-, rfl⟩ := Prod.mk.inj (Except.ok.inj hsame)
      have hlt : s.trail.level < A.length := (List.getElem?_eq_some_iff.1 hlevel).1
      exact ⟨_, hchoose, ⟨rfl, h.keep hsane he hA hnum, Or.inl ⟨hlt, rfl⟩⟩, rfl⟩
    | false =>
      rw [choose_of_not_holds h.valid hlevel hname hsat]
      cases hfals : s.trail.holds (-l) with
      | true => exact ⟨_, rfl, ⟨Or.inr rfl, h.standing.note (by simp)⟩, rfl⟩
      | false =>
        exact h.decideOn (o := s.order) hhead hname
          (Trail.unassigned_iff.2 ⟨hsat, hfals⟩) h.equipped.order
          (Order.Offers.mono h.sane.keeps.covers fun v hv => hv.1)
          (fun k hk => (Option.some.inj (hlevel.symm.trans hk)).symm) s.stats

/-- A step without conflict and restart ends with a choice. -/
theorem Searching.stepBy_of_fixpoint (h : s.Searching F A) (hs₁ : s.propagate = .ok (none, s₁))
    (hσ : σ.Allowed F A) (hover : r.isOver = false) :
    ∃ (s₂ : Solver) (x : Outcome × Solver), Solver.stepBy b σ A r s = .ok x ∧
      s₂.Searching F A ∧ s₂.Chosen F A r x ∧ x.2.pace = s.pace ∧
      s.trail.Extends s₁.trail ∧ s₁.trail.Forgets s₂.trail := by
  obtain ⟨s₂, hs₂, h₂, hhead, hext, hforgets, hpace₂⟩ := h.settle hs₁
  obtain ⟨s₃, hs₃, h₃, htrail, hpace₃⟩ := hσ.thin s₂ h₂
  obtain ⟨x, hx, hchosen, hpace⟩ := h₃.chooseBy (r := r) (htrail ▸ hhead) hσ
  refine ⟨s₃, x, ?_, h₃, hchosen, hpace.trans (hpace₃.trans hpace₂), hext, htrail ▸ hforgets⟩
  exact bind_eq_ok_iff.2 ⟨_, hs₁, bind_eq_ok_iff.2 ⟨s₂, hs₂, (if_neg (by simp [hover])).trans
    (bind_eq_ok_iff.2 ⟨s₃, hs₃, hx⟩)⟩⟩

/-! ## Whole searches -/

theorem Searching.stepBy (h : s.Searching F A) (hσ : σ.Allowed F A)
    (hr : Solver.stepBy b σ A r s = .ok (out, s')) :
    s'.Standing ∧ s.restarts.Precedes s'.restarts ∧
      ∀ r', out = .goOn r' → s'.Searching F A := by
  -- Conflicts and restarts do not depend on the strategy.
  have hown : Solver.step b A r s = .ok (out, s') → s'.Standing ∧
      s.restarts.Precedes s'.restarts ∧ ∀ r', out = .goOn r' → s'.Searching F A := fun hr =>
    ⟨(h.step hr).1, step_precedes hr, (h.step hr).2⟩
  obtain ⟨conflict, s₁, hs₁, -⟩ := h.propagate
  cases conflict with
  | some conflict => exact hown (stepBy_of_conflict hs₁ ▸ hr)
  | none =>
    cases hover : r.isOver with
    | true => exact hown (stepBy_of_over hover ▸ hr)
    | false =>
      obtain ⟨s₂, _, hx, -, hchosen, hpace, -⟩ := h.stepBy_of_fixpoint (b := b) hs₁ hσ hover
      obtain rfl := Except.ok.inj (hx.symm.trans hr)
      have hkept : s.restarts.Precedes s'.restarts := .of_eq (congrArg Pace.restarts hpace)
      cases out with
      | goOn r' => exact ⟨hchosen.2.1.standing, hkept, fun _ _ => hchosen.2.1⟩
      | finish v => exact ⟨hchosen.2, hkept, by simp⟩

theorem Searching.runBy {σ : Nat → Strategy} (h : s.Searching F A)
    (hσ : ∀ i, (σ i).Allowed F A) (hr : Solver.runBy b A fuel σ r s = .ok (v, s')) :
    s'.Standing ∧ s.restarts.Precedes s'.restarts := by
  induction fuel generalizing s r σ with
  | zero =>
    obtain ⟨-, rfl⟩ := Prod.mk.inj (Except.ok.inj hr)
    exact ⟨h.standing, .of_eq rfl⟩
  | succ fuel ih =>
    obtain ⟨⟨out, s₁⟩, hs₁, hr⟩ := bind_eq_ok_iff.1 hr
    obtain ⟨hstanding, hlater, hnext⟩ := h.stepBy (hσ 0) hs₁
    cases out with
    | finish v₁ =>
      obtain ⟨-, rfl⟩ := Prod.mk.inj (Except.ok.inj hr)
      exact ⟨hstanding, hlater⟩
    | goOn r₁ =>
      obtain ⟨h', hlater'⟩ := ih (hnext r₁ rfl) (fun i => hσ (i + 1)) hr
      exact ⟨h', hlater.trans hlater'⟩

theorem Standing.solveBy {σ : Nat → Strategy} (h : s.Standing) (hlevel : s.trail.level = 0)
    (hσ : ∀ i F A, (σ i).Allowed F A) (hr : s.solveBy σ fuel raws = .ok (v, s')) :
    (s'.Standing ∧ s'.trail.level = 0) ∧ s.restarts.Precedes s'.restarts := by
  unfold Solver.solveBy at hr
  rcases h.stood with ⟨F, hs, he⟩ | ⟨⟨F, hs⟩, hdoc⟩
  · rw [if_neg (by simp [hs.keeps.undecided])] at hr
    obtain ⟨ls, hls, hr⟩ := bind_eq_ok_iff.1 hr
    obtain ⟨b, -, hr⟩ := bind_eq_ok_iff.1 hr
    obtain ⟨⟨interval, restarts⟩, hnext, hr⟩ := bind_eq_ok_iff.1 hr
    obtain ⟨⟨v₁, s₁⟩, hs₁, hr⟩ := bind_eq_ok_iff.1 hr
    obtain ⟨s₂, hs₂, hr⟩ := bind_eq_ok_iff.1 hr
    obtain ⟨rfl, rfl⟩ := Prod.mk.inj (Except.ok.inj hr)
    obtain ⟨-, hnames⟩ := literals_eq_ok (Nat.lt_trans h.vars (by decide)) hls
    obtain ⟨h₁, hlater⟩ := ((Idle.searching ⟨hs, hlevel⟩ he h.vars hnames).atStart ls.length).runBy
      (fun i => hσ i F ls) hs₁
    obtain ⟨h₂, hlevel₂⟩ := h₁.backtrack hs₂
    have hnotice : verdictNotice v₁ ≠ .rootConflict := by cases v₁ <;> simp [verdictNotice]
    have hkept : s₂.restarts = s₁.restarts := congrArg Account.intervals (account_backtrack hs₂)
    exact ⟨⟨(h₂.note hnotice).note (by simp), hlevel₂⟩,
      (Restart.Precedes.of_next hnext).trans (hkept ▸ hlater)⟩
  · rw [if_pos hs.refuted] at hr
    obtain ⟨-, rfl⟩ := Prod.mk.inj (Except.ok.inj hr)
    exact ⟨⟨⟨h.vars, Or.inr ⟨⟨F, hs.of_eq rfl rfl⟩, hdoc.of_eq rfl rfl⟩⟩, hlevel⟩, .of_eq rfl⟩

end Solver

/-- Calls and searches under any choices lead from a new solver to this one. -/
inductive Attained (config : Config) : Solver → Prop where
  | create {s : Solver} (h : Solver.create config = .ok s) : Attained config s
  | call {s s' : Solver} {c : Call} {r : Reply} (h : Attained config s) (hc : c.Representable)
      (hr : s.perform c = .ok (r, s')) (hvars : s'.numVars < Event.varLimit) : Attained config s'
  | search {s s' : Solver} {c : Nat → Choices} {fuel : Nat} {raws : List Int} {v : Verdict}
      (h : Attained config s) (hc : ∀ i, (c i).Proper)
      (hr : s.solveBy (fun i => .free (c i)) fuel raws = .ok (v, s')) : Attained config s'

variable {config : Config} {s : Solver}

theorem Reachable.attained (h : Reachable config s) : Attained config s := by
  induction h with
  | create h => exact .create h
  | call h hc hr hvars ih => exact .call ih hc hr hvars

theorem Attained.standing (h : Attained config s) : s.Standing ∧ s.trail.level = 0 := by
  induction h with
  | create h => exact create_standing h
  | call h hc hr hvars ih => exact ih.1.perform ih.2 hc hr hvars
  | search h hc hr ih =>
    exact (ih.1.solveBy ih.2 (fun i _ _ => Strategy.free_allowed (hc i)) hr).1

/-- The restart intervals are what is left of the configured sequence. -/
theorem Attained.intervals (h : Attained config s) :
    ∃ r, Restart.ofPolicy config.restarts = .ok r ∧ r.Precedes s.restarts := by
  induction h with
  | create h =>
    obtain ⟨order, -, h⟩ := bind_eq_ok_iff.1 h
    obtain ⟨restarts, hrestarts, h⟩ := bind_eq_ok_iff.1 h
    obtain rfl := Except.ok.inj h
    exact ⟨restarts, hrestarts, .of_eq rfl⟩
  | call h hc hr hvars ih =>
    obtain ⟨r, hpolicy, hlater⟩ := ih
    exact ⟨r, hpolicy, hlater.trans (perform_precedes hr)⟩
  | search h hc hr ih =>
    obtain ⟨r, hpolicy, hlater⟩ := ih
    obtain ⟨hstanding, hlevel⟩ := h.standing
    exact ⟨r, hpolicy, hlater.trans
      (hstanding.solveBy hlevel (fun i _ _ => Strategy.free_allowed (hc i)) hr).2⟩

theorem Attained.restarts_never (h : Attained config s) (hnever : config.restarts = .never) :
    s.restarts = .never := by
  obtain ⟨r, hpolicy, hlater⟩ := h.intervals
  rw [hnever] at hpolicy
  obtain rfl := Except.ok.inj hpolicy
  exact Restart.eq_never_of_precedes hlater

end Cdcl
