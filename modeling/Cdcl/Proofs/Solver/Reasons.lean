import Cdcl.Proofs.Kernel.Reasons
import Cdcl.Proofs.Solver.Teaching

/-!
# Reasons during a search

A round of a search goes through the visits of its propagation and the states between its operations
(`Passes`). In all of them the parts of the kernel fit together (`Searching.continues_of_passes`), so
reasons justify their literals there, a conflict is explained, and thinning out the learnt clauses spares
every reason (`Reachable.reasons_explain`).
-/

namespace Cdcl
set_option autoImplicit false

namespace Solver

/-- The solvers that learning goes through after an analysis, up to the assertion. -/
inductive Learning (a : Analysis) (id : Option ClauseId) (s : Solver) : Solver → Prop
  | analyzed : Learning a id s s
  | bumped {s₁ : Solver} (hs₁ : s.bumpLearnts a.antecedents = .ok s₁) : Learning a id s s₁
  | returned {s₁ s₂ : Solver} (hs₁ : s.bumpLearnts a.antecedents = .ok s₁)
      (hs₂ : s₁.backtrack a.level = .ok s₂) : Learning a id s s₂
  | stored {s₁ s₂ s₃ : Solver} {c : Constraint} {ref : ClauseRef}
      (hs₁ : s.bumpLearnts a.antecedents = .ok s₁) (hs₂ : s₁.backtrack a.level = .ok s₂)
      (hc : Constraint.clause a.learnt = .ok c)
      (hs₃ : s₂.insertConstraint ⟨c, 0.0, true, id⟩ = .ok (ref, s₃)) : Learning a id s s₃

/-- The solvers that a round goes through before it chooses: it removes one constraint that holds at
level 0 after the other, and then one learnt clause after the other. -/
inductive Tidying (s : Solver) : Solver → Prop
  | recorded {s₁ : Solver} (hlev : s.trail.level = 0) (hs₁ : s.recordRoot = .ok s₁) : Tidying s s₁
  | shedding {s₁ s₂ : Solver} {found : List (ClauseRef × Stored)} {n : Nat}
      (hlev : s.trail.level = 0) (hs₁ : s.recordRoot = .ok s₁)
      (hfound : redundant s₁.trail s₁.store.entries = .ok found)
      (hs₂ : s₁.removeRedundant (found.take n) = .ok s₂) : Tidying s s₂
  | settled {s₁ : Solver} (hs₁ : s.settle = .ok s₁) : Tidying s s₁
  | thinning {s₁ s₂ : Solver} {entries : List (ClauseRef × Stored)} {extra : Float} {n quota : Nat}
      (hs₁ : s.settle = .ok s₁) (hentries : entriesOf s₁.store s₁.learnts = .ok entries)
      (hs₂ : removeInactive { s₁ with learnts := [] } extra quota
        ((entries.mergeSort (removedBefore s₁.config.clauseDecay.isNaN)).take n) = .ok s₂) :
      Tidying s s₂
  | thinned {s₁ s₂ : Solver} (hs₁ : s.settle = .ok s₁) (hs₂ : s₁.thin = .ok s₂) : Tidying s s₂

/-- The solvers that a round of a search goes through: at the visits of its propagation, then while it
learns from a conflict or tidies up before a choice, and at its end. -/
inductive Passes (b : Budget) (A : List Literal) (r : Round) (s : Solver) : Solver → Prop
  | visiting {fals : Literal} {refs : List ClauseRef} {k : Kernel}
      (hk : s.kernel.Propagates fals refs k) : Passes b A r s (s.setKernel k)
  | violated {fals : Literal} {ref : ClauseRef} {refs : List ClauseRef} {k k' : Kernel}
      (hk : s.kernel.Propagates fals (ref :: refs) k) (hv : k.visit ref fals = .ok (false, k')) :
      Passes b A r s (s.setKernel k')
  | propagated {o : Option ClauseRef} {s₁ : Solver} (hs₁ : s.propagate = .ok (o, s₁)) :
      Passes b A r s s₁
  | learning {conflict : ClauseRef} {stats : Statistics} {a : Analysis} {id : Option ClauseId}
      {s₁ s₂ t : Solver} (hs₁ : s.propagate = .ok (some conflict, s₁))
      (hs₂ : Solver.analyze { s₁ with stats } conflict = .ok (a, id, s₂))
      (ht : s₂.Learning a id t) : Passes b A r s t
  | tidying {s₁ t : Solver} (hs₁ : s.propagate = .ok (none, s₁)) (ht : s₁.Tidying t) :
      Passes b A r s t
  | finished {out : Outcome} {s' : Solver} (hr : Solver.step b A r s = .ok (out, s')) :
      Passes b A r s s'

variable {s s' t : Solver} {F : Formula} {A : List Literal} {b : Budget} {r : Round}
  {out : Outcome} {conflict : ClauseRef} {a : Analysis} {id : Option ClauseId}

theorem Keeps.continues_of_learning (h : s.Keeps F) (hk : s.kernel.Clash conflict)
    (hlearns : a.Learns s.trail) (ht : Learning a id s t) : s.kernel.Continues t.kernel := by
  have hvalid : s.trail.Valid := hk.sound.trail
  have hreturned : ∀ {s₁ s₂ : Solver}, s.bumpLearnts a.antecedents = .ok s₁ →
      s₁.backtrack a.level = .ok s₂ →
        s.kernel.Continues s₂.kernel ∧ s₂.trail = (s.trail.undoTo a.level).1 := by
    intro s₁ s₂ hs₁ hs₂
    have hbumps := bumpLearnts_eq_ok hs₁
    obtain ⟨-, hready, htrail, -⟩ :=
      (hbumps.keeps h).backtrack (hbumps.firm hk.toFirm) hlearns.level_lt hs₂
    rw [hbumps.trail] at htrail
    exact ⟨⟨hready.sound, (congrArg Trail.vars htrail).trans Trail.vars_undoTo⟩, htrail⟩
  cases ht with
  | analyzed => exact ⟨hk.sound, rfl⟩
  | bumped hs₁ =>
    have hbumps := bumpLearnts_eq_ok hs₁
    exact ⟨(hbumps.firm hk.toFirm).sound, congrArg Trail.vars hbumps.trail⟩
  | returned hs₁ hs₂ => exact (hreturned hs₁ hs₂).1
  | stored hs₁ hs₂ hc hs₃ =>
    obtain ⟨hsame, htrail⟩ := hreturned hs₁ hs₂
    obtain ⟨hvalid', -, hlits⟩ := Constraint.clause_eq_ok hc hlearns.distinct
    obtain ⟨l, others, hreturns⟩ := returns_of_learns hlearns hvalid
    obtain ⟨-, w, -, rfl⟩ := insertConstraint_eq_ok hs₃
    rw [← htrail] at hreturns
    refine ⟨hsame.sound.insert hvalid' fun x hx => hreturns.names x ?_, hsame.vars⟩
    rwa [hlits, hreturns.learnt] at hx

theorem Sane.continues_of_tidying (h : s.Sane F) (ht : s.Tidying t) :
    s.kernel.Continues t.kernel := by
  cases ht with
  | recorded hlev hs₁ =>
    obtain ⟨-, hlogs⟩ := h.keeps.recordRoot h.ready.sound hlev hs₁
    exact ⟨hlogs.kernel ▸ h.ready.sound, congrArg Trail.vars hlogs.trail⟩
  | shedding hlev hs₁ hfound hs₂ =>
    obtain ⟨hkeeps, hlogs⟩ := h.keeps.recordRoot h.ready.sound hlev hs₁
    have hfirm := h.ready
    rw [← hlogs.kernel] at hfirm
    obtain ⟨hshed, hforgets, -⟩ :=
      removeRedundant_eq_ok ((hkeeps.sheds hfirm hfound).take _) hs₂
    exact ⟨hshed.firm.sound, hforgets.vars.trans (congrArg Trail.vars hlogs.trail)⟩
  | settled hs₁ =>
    obtain ⟨h₁, hforgets⟩ := h.settle hs₁
    exact ⟨h₁.ready.sound, hforgets.vars⟩
  | thinning hs₁ hentries hs₂ =>
    obtain ⟨h₁, hforgets⟩ := h.settle hs₁
    obtain ⟨hthin, hspares⟩ :=
      removeInactive_eq_ok ((h₁.keeps.thins h₁.ready h₁.lists hentries).take _) hs₂
    exact ⟨hthin.firm.sound, (congrArg Trail.vars hspares.trail).trans hforgets.vars⟩
  | thinned hs₁ hs₂ =>
    obtain ⟨h₁, hforgets⟩ := h.settle hs₁
    obtain ⟨h₂, htrail⟩ := h₁.thin hs₂
    exact ⟨h₂.ready.sound, (congrArg Trail.vars htrail).trans hforgets.vars⟩

/-- However a step ends, the parts of the kernel fit together. -/
theorem Searching.sound_step (h : s.Searching F A) (hr : Solver.step b A r s = .ok (out, s')) :
    s'.kernel.Sound := by
  obtain ⟨⟨o, s₁⟩, hs₁, hr₁⟩ := bind_eq_ok_iff.1 hr
  obtain ⟨hkeeps₁, hends, hlists₁, -⟩ := h.sane.propagate hs₁
  cases o with
  | none =>
    have hopen : s'.refuted = false :=
      Sane.refuted_of_onFixpoint ⟨hends.1, hkeeps₁, hlists₁⟩ hr₁
    rcases (h.step hr).1.stood with ⟨_, hsane, -⟩ | ⟨⟨_, hrefuted⟩, -⟩
    · exact hsane.ready.sound
    · exact absurd (hopen.symm.trans hrefuted.refuted) (by simp)
  | some conflict =>
    by_cases hlev : s₁.trail.level = 0
    · change onConflict b r conflict s₁ = _ at hr₁
      unfold onConflict at hr₁
      obtain ⟨s₂, hs₂, hr₁⟩ := bind_eq_ok_iff.1 ((if_pos hlev).symm.trans hr₁)
      obtain ⟨-, rfl⟩ := Prod.mk.inj (Except.ok.inj hr₁)
      have hbase : Keeps { s₁ with
          stats := { s₁.stats with conflicts := s₁.stats.conflicts + 1 } } F :=
        hkeeps₁.of_eq rfl rfl rfl rfl rfl rfl rfl hkeeps₁.calm
      obtain ⟨-, -, hkernel⟩ := hbase.rootConflict hends hlev hs₂
      exact hkernel ▸ hends.sound
    · exact (onConflict_learns hkeeps₁ hends hlists₁ hlev hr₁).1.ready.sound

/-- Wherever a round is, the parts of the kernel fit together. -/
theorem Searching.continues_of_passes (h : s.Searching F A) (hp : Passes b A r s t) :
    s.kernel.Continues t.kernel := by
  cases hp with
  | visiting hk => exact hk.continues h.sane.ready
  | violated hk hv => exact hk.continues_of_visit h.sane.ready hv
  | propagated hs₁ =>
    obtain ⟨-, hends, hext, -⟩ := h.sane.keeps.propagate h.sane.ready hs₁
    exact ⟨hends.sound, hext.vars⟩
  | @learning conflict stats a id s₁ s₂ _ hs₁ hs₂ ht =>
    obtain ⟨hkeeps₁, hclash, hext, -⟩ := h.sane.keeps.propagate h.sane.ready hs₁
    have hbase : Keeps { s₁ with stats } F := hkeeps₁.of_eq rfl rfl rfl rfl rfl rfl rfl hkeeps₁.calm
    obtain ⟨hkeeps₂, hkernel, -, hlearns, -⟩ := hbase.analyze hclash hs₂
    have htrail : s₂.trail = s₁.trail := congrArg Kernel.trail hkernel
    have ht' := hkeeps₂.continues_of_learning (hkernel ▸ hclash) (htrail ▸ hlearns) ht
    exact ⟨ht'.sound, ht'.vars.trans ((congrArg Trail.vars htrail).trans hext.vars)⟩
  | tidying hs₁ ht =>
    obtain ⟨hkeeps₁, hends, hlists₁, hext⟩ := h.sane.propagate hs₁
    have hsane₁ : Sane _ F := ⟨hends.1, hkeeps₁, hlists₁⟩
    have ht' := hsane₁.continues_of_tidying ht
    exact ⟨ht'.sound, ht'.vars.trans hext.vars⟩
  | finished hr =>
    exact ⟨h.sound_step hr, (step_eq_ok h.sane h.signed h.assumes h.names hr).1⟩

/-- What may be thinned out is no reason. -/
theorem Searching.reduce (h : s.Searching F A) : ∃ s', s.reduce = .ok s' ∧ s.Spares s' := by
  obtain ⟨_, hfree, -⟩ := Supplied.reduce h.equipped h.sane.paced.keeps h.sane.ready h.sane.lists
  rw [reduce_paced] at hfree
  obtain ⟨s', hs', -⟩ := map_eq_ok_iff.1 hfree
  exact ⟨s', hs', (h.sane.keeps.reduce h.sane.ready h.sane.lists hs').2.2.2⟩

end Solver

open Solver

variable {config : Config} {s : Solver}

/-- Wherever a round of a search is, the reasons of true literals justify them and are acyclic, and the
propagation of the round ends with one of the visits that the round goes through. A conflict that the
round meets is explained by true literals that contradict the constraint. Thinning out the learnt
clauses before a choice leaves every reason stored as it is. -/
theorem Reachable.reasons_explain (h : Reachable config s) (hopen : s.refuted = false)
    {raws : List Int} {ls : List Literal} (hls : s.literals raws = .ok ls) {b : Budget}
    {r₀ r : Round} {restarts : Restart} {s₁ : Solver}
    (hrounds : Rounds b ls r₀ (s.atStart ls.length restarts) r s₁) :
    (∀ t, Passes b ls r s₁ t → t.kernel.Justified) ∧
    (∀ o s₂, s₁.propagate = .ok (o, s₂) → ∃ fals, s₁.kernel.Finishes s₂.kernel fals o) ∧
    (∀ conflict s₂, s₁.propagate = .ok (some conflict, s₂) →
      ∃ e why, s₂.kernel.Contradicts conflict e why) ∧
    ∀ s₂ s₃, s₁.propagate = .ok (none, s₂) → s₂.settle = .ok s₃ →
      ∃ s₄, s₃.reduce = .ok s₄ ∧ s₄.trail = s₃.trail ∧ ∀ l ref, s₃.trail.holds l = true →
        s₃.trail.reasonOf l.var = some ref → s₄.store.get? ref = s₃.store.get? ref := by
  obtain ⟨F, hstart⟩ := h.searching hopen hls restarts
  have hs := hrounds.searching hstart
  refine ⟨fun t ht => (hs.continues_of_passes ht).justified hs.signed, fun o s₂ hs₂ => ?_,
    fun conflict s₂ hs₂ => ?_, fun s₂ s₃ hs₂ hs₃ => ?_⟩
  · obtain ⟨⟨o', k⟩, hk, hs₂⟩ := bind_eq_ok_iff.1 hs₂
    obtain ⟨rfl, rfl⟩ := Prod.mk.inj (Except.ok.inj hs₂)
    exact Kernel.finishes_of_propagate hk
  · obtain ⟨-, hclash, hext, -⟩ := hs.sane.keeps.propagate hs.sane.ready hs₂
    exact Kernel.Clash.contradicts hclash (hext.vars.symm ▸ hs.signed)
  · obtain ⟨_, hs₃', h₃, -⟩ := hs.settle hs₂
    obtain rfl := Except.ok.inj (hs₃.symm.trans hs₃')
    obtain ⟨s₄, hs₄, hspares⟩ := h₃.reduce
    refine ⟨s₄, hs₄, hspares.trail, fun l ref _ href => ?_⟩
    obtain ⟨m, hm, hreason⟩ := h₃.valid.reasonOf_eq_some href
    exact hspares.stored l.var m ref hm hreason

/-! ## A conflict with an at-least constraint as a reason -/

/-- Without a certificate what remains of an at-least constraint is stored unless it is known. -/
theorem Solver.perform_addAtLeast_of_new {raws : List Int} {ls rest : List Literal}
    {degree degree' : Nat} {c : Constraint} {s₁ : Solver} {ref : ClauseRef}
    (hcert : s.certificate = none) (hopen : s.refuted = false) (hls : s.literals raws = .ok ls)
    (hform : Intake.atLeast ls degree s.trail = .ok (.ok (.atLeast rest degree')))
    (hc : Constraint.atLeastOf rest degree' = .ok c) (hnew : s.known[c.key]? = none)
    (hs₁ : s.insertConstraint ⟨c, 0.0, false, none⟩ = .ok (ref, s₁)) :
    s.perform (.addAtLeast raws degree) = .ok (.added (.ok (.stored ref)),
      { s₁ with known := s₁.known.insert c.key ref, formulaSize := s₁.formulaSize + 1 }) := by
  have hadd : s.addCardinality ls degree = .ok (.ok (.stored ref),
      { s₁ with known := s₁.known.insert c.key ref, formulaSize := s₁.formulaSize + 1 }) :=
    bind_eq_ok_iff.2 ⟨_, hform, bind_eq_ok_iff.2
      ⟨c, hc, bind_eq_ok_iff.2
        ⟨_, Solver.storeGiven_of_new hnew (certifyClause_of_none hcert _) hs₁, rfl⟩⟩⟩
  have hcall : s.addAtLeast raws degree = .ok (.ok (.stored ref),
      { s₁ with known := s₁.known.insert c.key ref, formulaSize := s₁.formulaSize + 1 }) := by
    refine bind_eq_ok_iff.2 ⟨ls, hls, ?_⟩
    rw [if_neg (by simp [hopen]), if_neg (by simp [hcert]), hadd]
  exact bind_eq_ok_iff.2 ⟨_, hcall, rfl⟩

/-- Two of three variables have to be true, but not the last two. When the first one is assumed to be
false, the other two are forced. -/
theorem Reachable.exists_atLeast_reason : ∃ s s₁ s₂ : Solver, Reachable Config.plain s ∧
    s.refuted = false ∧ s.literals [-1] = .ok [⟨⟨1⟩, true⟩] ∧
    Rounds ⟨none, none⟩ [⟨⟨1⟩, true⟩] ⟨none, 0⟩ (s.atStart 1 .never) ⟨none, 0⟩ s₁ ∧
    s₁.propagate = .ok (some ⟨1⟩, s₂) ∧
    s₂.trail.holds ⟨⟨3⟩, false⟩ = true ∧ s₂.trail.reasonOf ⟨3⟩ = some ⟨0⟩ ∧
    s₂.store.get? ⟨0⟩ = some ⟨.atLeast 2 [⟨⟨1⟩, false⟩, ⟨⟨2⟩, false⟩, ⟨⟨3⟩, false⟩] [], 0.0, false,
      none⟩ := by
  obtain ⟨s, hs, hopen, hls, hbare⟩ : ∃ s : Solver, Reachable Config.plain s ∧ s.refuted = false ∧
      s.literals [-1] = .ok [⟨⟨1⟩, true⟩] ∧
      s.Bare (.pair [none, none, none, none] [] [] 0
        [[], [], [⟨0⟩], [], [⟨0⟩], [⟨1⟩], [⟨0⟩], [⟨1⟩]]
        (.atLeast 2 [⟨⟨1⟩, false⟩, ⟨⟨2⟩, false⟩, ⟨⟨3⟩, false⟩] [])
        (.binary ⟨⟨2⟩, true⟩ ⟨⟨3⟩, true⟩)) ⟨⟨#[false, false, false, false]⟩, []⟩ := by
    have h₀ : Reachable Config.plain _ :=
      .create (show Solver.create Config.plain = .ok _ from rfl)
    have h₁ := h₀.call (c := .newVars 3) trivial rfl (by decide)
    have h₂ := h₁.call (c := .addAtLeast [1, 2, 3] 2) (by decide)
      (Solver.perform_addAtLeast_of_new rfl rfl rfl rfl rfl Std.HashMap.getElem?_empty rfl)
      (by decide)
    have h₃ := h₂.call (c := .addClause [-2, -3]) trivial
      (Solver.perform_addClause_of_new rfl rfl rfl rfl
        (by rw [Std.HashMap.getElem?_insert]; exact Std.HashMap.getElem?_empty) rfl rfl) (by decide)
    exact ⟨_, h₃, rfl, rfl, ⟨⟨rfl, rfl⟩, rfl, rfl, rfl⟩⟩
  have hstart : Rounds ⟨none, none⟩ [⟨⟨1⟩, true⟩] ⟨none, 0⟩ (s.atStart 1 .never) ⟨none, 0⟩ _ :=
    .start
  obtain ⟨s₁, hr₁, h₁⟩ := hstart.decide hbare.atStart rfl rfl (fun _ => rfl) rfl rfl rfl rfl
  obtain ⟨k, hk, hholds, hreason, hstored⟩ : ∃ k, Kernel.propagate (.pair
      [none, some ⟨true, 1, none, 0⟩, none, none] [⟨⟨1⟩, true⟩] [0] 0
      [[], [], [⟨0⟩], [], [⟨0⟩], [⟨1⟩], [⟨0⟩], [⟨1⟩]]
      (.atLeast 2 [⟨⟨1⟩, false⟩, ⟨⟨2⟩, false⟩, ⟨⟨3⟩, false⟩] [])
      (.binary ⟨⟨2⟩, true⟩ ⟨⟨3⟩, true⟩)) = .ok (some ⟨1⟩, k) ∧
      k.trail.holds ⟨⟨3⟩, false⟩ = true ∧ k.trail.reasonOf ⟨3⟩ = some ⟨0⟩ ∧
      k.store.get? ⟨0⟩ = some ⟨.atLeast 2 [⟨⟨1⟩, false⟩, ⟨⟨2⟩, false⟩, ⟨⟨3⟩, false⟩] [], 0.0, false,
        none⟩ := ⟨_, rfl, rfl, rfl, rfl⟩
  obtain ⟨hprop, h₂⟩ := h₁.propagate hk
  rw [← h₂.kernel] at hholds hreason hstored
  exact ⟨s, s₁, _, hs, hopen, hls, hr₁, hprop, hholds, hreason, hstored⟩

/-- The at-least constraint explains the third variable, and the clause explains the conflict. -/
theorem Reachable.reasons_explain_atLeast : ∃ s s₁ s₂ : Solver, Reachable Config.plain s ∧
    s.refuted = false ∧ s.literals [-1] = .ok [⟨⟨1⟩, true⟩] ∧
    Rounds ⟨none, none⟩ [⟨⟨1⟩, true⟩] ⟨none, 0⟩ (s.atStart 1 .never) ⟨none, 0⟩ s₁ ∧
    s₁.propagate = .ok (some ⟨1⟩, s₂) ∧
    (∃ why, s₂.kernel.Justifies ⟨0⟩ ⟨⟨3⟩, false⟩
      ⟨.atLeast 2 [⟨⟨1⟩, false⟩, ⟨⟨2⟩, false⟩, ⟨⟨3⟩, false⟩] [], 0.0, false, none⟩ why) ∧
    ∃ e why, s₂.kernel.Contradicts ⟨1⟩ e why := by
  obtain ⟨s, s₁, s₂, hs, hopen, hls, hrounds, hprop, hholds, hreason, hstored⟩ :=
    Reachable.exists_atLeast_reason
  obtain ⟨hpasses, -, hcontradicts, -⟩ := Reachable.reasons_explain hs hopen hls hrounds
  obtain ⟨e, why, hjustifies⟩ := (hpasses s₂ (.propagated hprop)).reasons _ _ hholds hreason
  obtain rfl := Option.some.inj (hstored.symm.trans hjustifies.stored)
  exact ⟨s, s₁, s₂, hs, hopen, hls, hrounds, hprop, ⟨why, hjustifies⟩, hcontradicts _ _ hprop⟩

end Cdcl
