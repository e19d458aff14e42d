import Cdcl.Proofs.Progress.Cleaning
import Cdcl.Proofs.Solver.Searching

/-!
# Searches do not get stuck

Each step of a search has a result (`Supplied.step`), and so has a run (`Supplied.run`). A step takes at
most one restart interval, so a search of some number of steps takes at most one more.
-/

namespace Cdcl
set_option autoImplicit false

/-- The numbers name literals of so many variables. -/
def InRange (vars : Nat) (raws : List Int) : Prop := ∀ raw ∈ raws, raw ≠ 0 ∧ raw.natAbs ≤ vars

instance (vars : Nat) (raws : List Int) : Decidable (InRange vars raws) :=
  inferInstanceAs (Decidable (∀ raw ∈ raws, raw ≠ 0 ∧ raw.natAbs ≤ vars))

/-- There are at most two literals for each variable. -/
theorem InRange.length_le {vars : Nat} {raws : List Int} (h : InRange vars raws)
    (hnodup : raws.Nodup) : raws.length ≤ 2 * vars + 1 := by
  have hsubset : raws ⊆ (List.range (2 * vars + 1)).map fun i : Nat => (i : Int) - vars := by
    intro raw hraw
    have hle := (h raw hraw).2
    exact List.mem_map.2 ⟨(raw + vars).toNat, List.mem_range.2 (by omega), by omega⟩
  have hle := (List.subperm_of_subset hnodup hsubset).length_le
  rwa [List.length_map, List.length_range] at hle

namespace Solver

variable {s s' : Solver} {F : Formula} {A : List Literal} {n fuel : Nat} {l : Literal}
  {conflict ref : ClauseRef} {a : Analysis} {id : Option ClauseId} {b : Budget} {r : Round}
  {ls : List Literal} {t : Trail}

/-! ## Conflicts -/

/-- A conflict above level 0 can be analysed, and the learnt clause gets a number if a certificate is
kept. -/
theorem Supplied.analyze (h : s.Supplied n) (hs : s.Keeps F) (hk : s.kernel.Clash conflict)
    (hlev : 0 < s.trail.level) (hvars : s.numVars < Var.signedLimit) :
    ∃ a id s', s.analyze conflict = .ok (a, id, s') ∧ s'.Supplied n ∧
      (∀ ref ∈ a.antecedents, ∃ e, s.store.get? ref = some e) ∧
      (s'.certificate ≠ none → id ≠ none) := by
  obtain ⟨a, analyzer, ha, hroom, hmet⟩ :=
    Analysis.of_succeeds hk hlev h.decided hvars hs.clear h.analyzer
  obtain ⟨order, horder, hroom'⟩ := h.order.bumpAll hmet
  have hbase : Ample (setOrder { s with analyzer } order) n :=
    ⟨h.valid, h.watches, hroom, hroom', h.decided, h.timeLimit, h.conflictLimit, h.restarts⟩
  obtain ⟨id, s₁, hs₁, hlogs, hcomplete⟩ := certifyClause_succeeds
    (s := setOrder { s with analyzer } order) (fun c => c.Complete s.trail) fun c hc =>
      (h.complete hs.undecided c hc).deriveLearnt (hs.certified c hc).2 hk hs.clear ha
  have hreq : (!a.steps.isEmpty || !a.fixed.isEmpty || s.certificate.isNone) = true := by
    cases hc : s.certificate with
    | none => simp
    | some c =>
      obtain ⟨es, q, hbacks⟩ := (hs.certified c hc).2
      obtain ⟨e, he, -⟩ := hk.violated
      have hne := Analysis.steps_ne_nil hk hs.clear he (hbacks.stored _ _ he).1 ha
      simp [hne]
  refine ⟨a, id, _, bind_eq_ok_iff.2 ⟨_, ha, bind_eq_ok_iff.2 ⟨order, horder, bind_eq_ok_iff.2
    ⟨(), require_eq_ok_iff.2 hreq, bind_eq_ok_iff.2 ⟨_, hs₁, rfl⟩⟩⟩⟩,
    (hbase.supplied hlogs hcomplete).note _, Analysis.stored_of_antecedents hk hs.clear ha, ?_⟩
  obtain ⟨-, ⟨hnone, rfl⟩ | ⟨c, c', i, -, -, rfl, -⟩⟩ := certifyClause_eq_ok hs₁
  · exact fun hsome => absurd hnone hsome
  · exact fun _ => by simp

/-- The learnt clause is stored, and its first literal is asserted. -/
theorem Supplied.assertLearnt {others : List Literal} {f : Fault} (h : s.Supplied n)
    (hreturns : Returns s.trail a l others) (hne : others ≠ [])
    (hdistinct : ((l :: others).map Literal.var).Nodup) (id : Option ClauseId) :
    ∃ c ref s₁ s₂ s', Constraint.clause (l :: others) = .ok c ∧
      s.insertConstraint ⟨c, 0.0, true, id⟩ = .ok (ref, s₁) ∧
      (s₁.keepLearnt ref).bumpClause ref = .ok s₂ ∧ s₂.assert l (some ref) f = .ok s' ∧
      s'.Supplied n := by
  obtain ⟨m, ms, rfl⟩ := List.exists_cons_of_ne_nil hne
  obtain ⟨c, hc⟩ := Constraint.clause_succeeds (by simp) hdistinct
  obtain ⟨-, -, hlits⟩ := Constraint.clause_eq_ok hc hdistinct
  obtain ⟨ref, s₁, hs₁, h₁⟩ := h.insertConstraint (e := ⟨c, 0.0, true, id⟩) (by
    rw [hlits]
    exact hreturns.names)
  obtain ⟨href, w, -, hs₁'⟩ := insertConstraint_eq_ok hs₁
  have hget : (s₁.keepLearnt ref).store.get? ref = some ⟨c, 0.0, true, id⟩ := by
    rw [hs₁', href]
    exact Store.get?_insert_self
  obtain ⟨s₂, hs₂⟩ := bumpClause_succeeds hget
  have hbumps := bumpClause_eq_ok hs₂
  have htrail : s₂.trail = s.trail := by
    rw [hbumps.trail, hs₁']
    rfl
  obtain ⟨hpos, -⟩ := hreturns.second m ms rfl
  rw [← hreturns.level] at hpos
  rw [← htrail] at hreturns hpos
  have hname := hreturns.names l List.mem_cons_self
  have h₂ : s₂.Supplied n := hbumps.supplied (h₁.keepLearnt ref)
  exact ⟨c, ref, s₁, s₂, _, hc, hs₁, hs₂, h₂.assert hname hreturns.free,
    h₂.push hname hreturns.free hpos _⟩

/-- The solver returns to the level of the learnt clause and asserts its first literal. -/
theorem Supplied.learn (h : s.Supplied n) (hs : s.Keeps F) (hk : s.kernel.Clash conflict)
    (hlearns : a.Learns s.trail) (hstored : ∀ ref ∈ a.antecedents, ∃ e, s.store.get? ref = some e)
    (hid : s.certificate ≠ none → id ≠ none) : ∃ s', s.learn a id = .ok s' ∧ s'.Supplied n := by
  obtain ⟨s₁, hs₁⟩ := bumpLearnts_succeeds hstored
  have hbumps := bumpLearnts_eq_ok hs₁
  obtain ⟨s₂, hs₂, h₂⟩ := (hbumps.supplied h).backtrack a.level
  obtain ⟨hkeeps₂, hk₂, htrail, -, -, hcertificate⟩ := (hbumps.keeps hs).backtrack
    (hbumps.firm hk.toFirm) (by exact hlearns.level_lt) hs₂
  rw [hbumps.trail] at htrail
  obtain ⟨l, others, hreturns⟩ := returns_of_learns hlearns h.valid
  rw [← htrail] at hreturns
  unfold Solver.learn
  rw [hreturns.learnt]
  cases others with
  | nil =>
    obtain ⟨s₃, s₄, hs₃, hs₄, h₄⟩ := h₂.fix (f := .falseAsserting l)
      hkeeps₂.undecided (hreturns.level.trans (hreturns.unit rfl))
      (hreturns.names l List.mem_cons_self) hreturns.free
      (by rwa [hcertificate, hbumps.certificate])
    exact ⟨_, bind_eq_ok_iff.2 ⟨s₁, hs₁, bind_eq_ok_iff.2 ⟨s₂, hs₂, bind_eq_ok_iff.2 ⟨s₃, hs₃,
      bind_eq_ok_iff.2 ⟨s₄, hs₄, rfl⟩⟩⟩⟩, h₄.of_eq rfl rfl rfl rfl rfl rfl rfl rfl⟩
  | cons m ms =>
    obtain ⟨c, ref, s₃, s₄, s₅, hc, hs₃, hs₄, hs₅, h₅⟩ :=
      h₂.assertLearnt (f := .falseAsserting l) hreturns (by simp)
        (hreturns.learnt ▸ hlearns.distinct) id
    exact ⟨_, bind_eq_ok_iff.2 ⟨s₁, hs₁, bind_eq_ok_iff.2 ⟨s₂, hs₂, bind_eq_ok_iff.2 ⟨c, hc,
      bind_eq_ok_iff.2 ⟨_, hs₃, bind_eq_ok_iff.2 ⟨s₄, hs₄, bind_eq_ok_iff.2 ⟨s₅, hs₅, rfl⟩⟩⟩⟩⟩⟩,
      h₅.of_eq rfl rfl rfl rfl rfl rfl rfl rfl⟩

/-- A conflict is dealt with. Only one at level 0 is met before the units are recorded. -/
theorem Ample.onConflict (h : s.Ample n) (hs : s.Keeps F) (hk : s.kernel.Clash conflict)
    (hvars : s.numVars < Var.signedLimit) (hext : t.Extends s.trail)
    (hc : ∀ c, s.certificate = some c → c.Complete t) (b : Budget) (r : Round) :
    ∃ out s', onConflict b r conflict s = .ok (out, s') ∧ s'.Supplied n := by
  unfold Solver.onConflict
  dsimp only
  set s₀ : Solver := { s with stats := { s.stats with conflicts := s.stats.conflicts + 1 } }
  have h₀ : s₀.Ample n := h.of_eq rfl rfl rfl rfl rfl rfl
  have hs₀ : s₀.Keeps F := hs.of_eq rfl rfl rfl rfl rfl rfl rfl hs.calm
  split
  · next hlev =>
    obtain ⟨s₁, hs₁, h₁⟩ := h₀.rootConflict hs₀ hk hlev hc hext
    exact ⟨_, _, bind_eq_ok_iff.2 ⟨s₁, hs₁, rfl⟩, h₁⟩
  · next hlev =>
    have hpos : 0 < s.trail.level := Nat.pos_of_ne_zero hlev
    have hsupplied : s₀.Supplied n := ⟨h₀, fun _ c hcert =>
      (hc c hcert).of_sameRoot hext.vars (.of_extends hext (hext.level ▸ hpos))⟩
    obtain ⟨a, id, s₁, hs₁, h₁, hstored, hid⟩ := hsupplied.analyze hs₀ hk hpos hvars
    obtain ⟨hkeeps₁, hkernel, -, hlearns, -⟩ := hs₀.analyze hk hs₁
    have htrail : s₁.trail = s.trail := congrArg Kernel.trail hkernel
    have hstore : s₁.store = s.store := congrArg Kernel.store hkernel
    obtain ⟨s₂, hs₂, h₂⟩ := h₁.learn hkeeps₁ (hkernel ▸ hk) (htrail ▸ hlearns) (hstore ▸ hstored) hid
    have h₃ : Supplied { s₂ with
        order := s₂.order.decayed
        clauseIncrement := s₂.clauseIncrement / s₂.config.clauseDecay } n :=
      ⟨⟨h₂.valid, h₂.watches, h₂.analyzer, h₂.order.decayed, h₂.decided, h₂.timeLimit, h₂.conflictLimit,
        h₂.restarts⟩, h₂.complete⟩
    by_cases hb : b.exhausted s₂.stats.conflicts s₂.now
    · exact ⟨_, _, bind_eq_ok_iff.2 ⟨_, hs₁, bind_eq_ok_iff.2 ⟨s₂, hs₂, if_pos hb⟩⟩, h₃⟩
    · exact ⟨_, _, bind_eq_ok_iff.2 ⟨_, hs₁, bind_eq_ok_iff.2 ⟨s₂, hs₂, if_neg hb⟩⟩, h₃⟩

/-! ## Decisions -/

theorem Supplied.restart (h : s.Supplied (n + 1)) (b : Budget) :
    ∃ out s', restart b s = .ok (out, s') ∧ s'.Supplied n := by
  obtain ⟨s₁, hs₁, h₁⟩ := h.backtrack 0
  obtain ⟨interval, restarts, hnext, hfits⟩ := h₁.restarts
  have hample : ∀ (stats : Statistics) (maxLearnts : Float) (journal : Array Notice),
      Supplied { s₁ with stats, maxLearnts, journal, restarts } n := fun _ _ _ =>
    ⟨{ h₁.toAmple with restarts := hfits }, h₁.complete⟩
  unfold Solver.restart
  rw [hs₁]
  dsimp only [bind, Except.bind]
  split
  · exact ⟨_, _, rfl, (h₁.mono (Nat.le_succ n)).of_eq rfl rfl rfl rfl rfl rfl rfl rfl⟩
  · exact ⟨_, _, bind_eq_ok_iff.2 ⟨_, hnext, rfl⟩, hample _ _ _⟩

theorem Supplied.decideOn (h : s.Supplied n) (hname : s.trail.Names l)
    (hnone : s.trail.mark? l.var = none) (r : Round) :
    ∃ out s', decideOn r l s = .ok (out, s') ∧ s'.Supplied n := by
  have ht : s.trail.Valid := h.valid
  have hcell := ht.covers hname
  have hample : Ample { s with kernel := { s.kernel with trail := s.trail.openLevel.push l none } } n :=
    h.toAmple.follow (ht.openLevel.push hname hnone) rfl h.watches h.order
      (h.decided.decide ht hname hnone)
  have hopen : s.trail.SameRoot s.trail.openLevel := .of_mark_eq fun _ => rfl
  have hpush : s.trail.openLevel.SameRoot (s.trail.openLevel.push l none) :=
    .push hcell.openLevel hnone (by rw [Trail.level_openLevel]; exact Nat.succ_pos _)
  exact ⟨_, _, bind_eq_ok_iff.2 ⟨_, ht.decide hname hnone, rfl⟩, hample.of_eq rfl rfl rfl rfl rfl rfl,
    fun hno c hc => (h.complete hno c hc).of_sameRoot rfl (hopen.trans hpush)⟩

/-- The order offers a literal, or every variable is assigned. -/
theorem Supplied.branch (h : s.Supplied n) (hs : s.Keeps F)
    (hvars : s.numVars < Var.signedLimit) (r : Round) :
    ∃ out s', branch r s = .ok (out, s') ∧ s'.Supplied n := by
  obtain ⟨picked, order, hselect, hroom⟩ := h.order.select h.valid hvars hs.covers
  have hample : ∀ (stats : Statistics) (model : Option (List Int)),
      Supplied { s with order, stats, model } n := fun _ _ =>
    ⟨{ h.toAmple with order := hroom }, h.complete⟩
  cases picked with
  | none => exact ⟨_, _, bind_eq_ok_iff.2 ⟨_, hselect, rfl⟩, hample _ _⟩
  | some l =>
    obtain ⟨hnone, hname, -⟩ := Order.select_eq_ok hs.covers hvars hselect
    obtain ⟨out, s', hs', h'⟩ := (hample { s.stats with decisions := s.stats.decisions + 1 }
      s.model).decideOn hname hnone r
    exact ⟨out, s', bind_eq_ok_iff.2 ⟨_, hselect, hs'⟩, h'⟩

/-- An assumption is decided on, or it holds already, or the search ends. -/
theorem Supplied.choose (h : s.Supplied n) (hs : s.Keeps F)
    (hvars : s.numVars < Var.signedLimit) (hnames : ∀ l ∈ A, s.trail.Names l) (r : Round) :
    ∃ out s', choose A r s = .ok (out, s') ∧ s'.Supplied n := by
  unfold Solver.choose
  split
  · exact h.branch hs hvars r
  · next l hl =>
    have hname := hnames l (List.mem_of_getElem? hl)
    rw [h.valid.isSatisfied hname, h.valid.isFalsified hname]
    dsimp only [bind, Except.bind]
    split
    · exact ⟨_, _, rfl, h.toAmple.follow h.valid.openLevel rfl h.watches h.order
          (h.decided.openLevel h.valid),
        fun hno c hc => (h.complete hno c hc).of_sameRoot rfl (.of_mark_eq fun _ => rfl)⟩
    · next hholds =>
      split
      · exact ⟨_, _, rfl, h.note _⟩
      · next hfalse =>
        exact h.decideOn hname
          (Trail.unassigned_iff.2 ⟨by simpa using hholds, by simpa using hfalse⟩) r

/-- At level 0 the units are recorded, and what holds for good is removed. -/
theorem Ample.settle (h : s.Ample n) (hs : s.Sane F) (hext : t.Extends s.trail)
    (hc : ∀ c, s.certificate = some c → c.Complete t) :
    ∃ s', s.settle = .ok s' ∧ s'.Supplied n := by
  unfold Solver.settle
  split
  · next hlev =>
    obtain ⟨s₁, hs₁, h₁⟩ := h.recordRoot hs.keeps hs.ready.sound hlev hc hext
    obtain ⟨hkeeps₁, hlogs⟩ := hs.keeps.recordRoot hs.ready.sound hlev hs₁
    obtain ⟨s', hs', h'⟩ := h₁.simplify hkeeps₁ (hlogs.kernel ▸ hs.ready) (by rw [hlogs.trail, hlev])
    exact ⟨s', bind_eq_ok_iff.2 ⟨s₁, hs₁, hs'⟩, h'⟩
  · next hlev =>
    exact ⟨s, rfl, h, fun _ c hcert => (hc c hcert).of_sameRoot hext.vars
      (.of_extends hext (hext.level ▸ Nat.pos_of_ne_zero hlev))⟩

theorem Supplied.thin (h : s.Supplied n) (hs : s.Sane F) : ∃ s', s.thin = .ok s' ∧ s'.Supplied n := by
  unfold Solver.thin
  split
  · exact h.reduce hs.keeps hs.ready hs.lists
  · exact ⟨s, rfl, h⟩

/-- After a propagation without conflict the search goes on. -/
theorem Ample.onFixpoint (h : s.Ample (n + 1)) (hs : s.Sane F)
    (hvars : s.numVars < Var.signedLimit) (hnames : ∀ l ∈ A, s.trail.Names l)
    (hext : t.Extends s.trail) (hc : ∀ c, s.certificate = some c → c.Complete t) (b : Budget)
    (r : Round) : ∃ out s', onFixpoint b A r s = .ok (out, s') ∧ s'.Supplied n := by
  rw [onFixpoint_eq]
  obtain ⟨s₁, hs₁, h₁⟩ := h.settle hs hext hc
  obtain ⟨hsane₁, hforgets⟩ := hs.settle hs₁
  by_cases hover : r.isOver = true
  · obtain ⟨out, s', hs', h'⟩ := h₁.restart b
    exact ⟨out, s', bind_eq_ok_iff.2 ⟨s₁, hs₁, (if_pos hover).trans hs'⟩, h'⟩
  · obtain ⟨s₂, hs₂, h₂⟩ := (h₁.mono (Nat.le_succ n)).thin hsane₁
    obtain ⟨hsane₂, htrail⟩ := hsane₁.thin hs₂
    have hvars₂ : s₂.numVars = s.numVars := (congrArg Trail.vars htrail).trans hforgets.vars
    obtain ⟨out, s', hs', h'⟩ := h₂.choose hsane₂.keeps (hvars₂ ▸ hvars)
      (fun l hl => ⟨(hnames l hl).1, Nat.le_trans (hnames l hl).2 (Nat.le_of_eq hvars₂.symm)⟩) r
    exact ⟨out, s', bind_eq_ok_iff.2 ⟨s₁, hs₁, (if_neg hover).trans
      (bind_eq_ok_iff.2 ⟨s₂, hs₂, hs'⟩)⟩, h'⟩

/-! ## Whole searches -/

/-- A step takes at most one restart interval. -/
theorem Supplied.step (h : s.Supplied (n + 1)) (hs : s.Sane F)
    (hvars : s.numVars < Var.signedLimit) (hnames : ∀ l ∈ A, s.trail.Names l) (b : Budget)
    (r : Round) : ∃ out s', step b A r s = .ok (out, s') ∧ s'.Supplied n := by
  obtain ⟨conflict, s₁, hs₁, h₁, hcertificate⟩ := h.propagate hs.ready
  obtain ⟨hkeeps₁, hends, hlists₁, hext⟩ := hs.propagate hs₁
  have hc : ∀ c, s₁.certificate = some c → c.Complete s.trail := fun c hc =>
    h.complete hs.keeps.undecided c (hcertificate ▸ hc)
  have hvars₁ : s₁.numVars = s.numVars := hext.vars
  rw [← hvars₁] at hvars
  cases conflict with
  | some ref =>
    obtain ⟨out, s', hs', h'⟩ :=
      (h₁.mono (Nat.le_succ n)).onConflict hkeeps₁ hends hvars hext hc b r
    exact ⟨out, s', bind_eq_ok_iff.2 ⟨_, hs₁, hs'⟩, h'⟩
  | none =>
    obtain ⟨out, s', hs', h'⟩ := h₁.onFixpoint ⟨hends.1, hkeeps₁, hlists₁⟩ hvars
      (fun l hl => hext.names.2 (hnames l hl)) hext hc b r
    exact ⟨out, s', bind_eq_ok_iff.2 ⟨_, hs₁, hs'⟩, h'⟩

/-- A run takes at most one restart interval for each step. -/
theorem Supplied.run (h : s.Supplied (fuel + n)) (hs : s.Sane F)
    (hvars : s.numVars < Var.signedLimit) (hA : s.trail.Assumes A)
    (hnames : ∀ l ∈ A, s.trail.Names l) (b : Budget) (r : Round) :
    ∃ v s', run b A fuel r s = .ok (v, s') ∧ s'.Supplied n := by
  induction fuel generalizing s r with
  | zero => exact ⟨_, s, rfl, Nat.zero_add n ▸ h⟩
  | succ fuel ih =>
    obtain ⟨out, s₁, hs₁, h₁⟩ := Supplied.step (Nat.succ_add fuel n ▸ h) hs hvars hnames b r
    obtain ⟨hvars₁, hleads⟩ := step_eq_ok hs hvars hA hnames hs₁
    cases out with
    | finish v => exact ⟨v, s₁, bind_eq_ok_iff.2 ⟨_, hs₁, rfl⟩, h₁.mono (Nat.le_add_left n fuel)⟩
    | goOn r₁ =>
      have hnames₁ : ∀ l ∈ A, s₁.trail.Names l := fun l hl =>
        ⟨(hnames l hl).1, Nat.le_trans (hnames l hl).2 (Nat.le_of_eq hvars₁.symm)⟩
      obtain ⟨v, s', hs', h'⟩ := ih h₁ hleads.1 (hvars₁ ▸ hvars) hleads.2 hnames₁ r₁
      exact ⟨v, s', bind_eq_ok_iff.2 ⟨_, hs₁, hs'⟩, h'⟩

/-! ## Calls -/

theorem literals_succeeds {raws : List Int} (h : InRange s.numVars raws) :
    ∃ ls, s.literals raws = .ok ls := by
  induction raws with
  | nil => exact ⟨[], rfl⟩
  | cons raw raws ih =>
    obtain ⟨⟨hne, hle⟩, hraws⟩ := List.forall_mem_cons.1 h
    obtain ⟨ls, hls⟩ := ih hraws
    have hl : s.literal raw = .ok (Var.literal ⟨raw.natAbs⟩ (decide (raw < 0))) :=
      bind_eq_ok_iff.2 ⟨(), require_eq_ok_iff.2 (by simpa using hle), if_neg hne⟩
    exact ⟨_, bind_eq_ok_iff.2 ⟨_, hl, bind_eq_ok_iff.2 ⟨ls, hls, rfl⟩⟩⟩

theorem inRange_of_literals {ls : List Literal} {raws : List Int} (h : s.literals raws = .ok ls) :
    InRange s.numVars raws := by
  induction raws generalizing ls with
  | nil => exact fun raw hraw => absurd hraw (by simp)
  | cons raw raws ih =>
    obtain ⟨l, hl, h⟩ := bind_eq_ok_iff.1 h
    obtain ⟨ls, hls, -⟩ := bind_eq_ok_iff.1 h
    obtain ⟨_, hle, hl⟩ := bind_eq_ok_iff.1 hl
    have hne : raw ≠ 0 := by
      intro hzero
      unfold Literal.ofInt at hl
      rw [if_pos hzero] at hl
      exact absurd hl (by simp)
    exact List.forall_mem_cons.2 ⟨⟨hne, by simpa using require_eq_ok_iff.1 hle⟩, ih hls⟩

theorem Ample.budget (h : s.Ample n) : s.budget = .ok ⟨none, none⟩ := by
  unfold Solver.budget
  rw [h.timeLimit, h.conflictLimit]
  rfl

/-- A search under assumptions has a result. It takes an interval to start with and at most one for
each step. -/
theorem Supplied.solve {raws : List Int} (h : s.Supplied (fuel + 1 + n))
    (hs : s.refuted = false → s.Idle F) (hvars : s.numVars < Var.signedLimit)
    (hraws : InRange s.numVars raws) : ∃ v s', s.solve fuel raws = .ok (v, s') ∧ s'.Supplied n := by
  by_cases hrefuted : s.refuted = true
  · exact ⟨_, _, if_pos hrefuted,
      (h.mono (Nat.le_add_left n _)).of_eq rfl rfl rfl rfl rfl rfl rfl rfl⟩
  have hopen : s.refuted = false := by simpa using hrefuted
  have hidle := hs hopen
  obtain ⟨ls, hls⟩ := literals_succeeds hraws
  obtain ⟨-, hnames⟩ := literals_eq_ok hvars hls
  obtain ⟨interval, restarts, hnext, hfits⟩ : s.restarts.Fits (fuel + n + 1) :=
    Nat.add_right_comm fuel 1 n ▸ h.restarts
  have h₁ : (s.atStart ls.length restarts).Supplied (fuel + n) :=
    ⟨{ h.toAmple with restarts := hfits }, h.complete⟩
  obtain ⟨v, s₂, hs₂, h₂⟩ := h₁.run (hidle.toSane.atStart ls.length restarts) hvars
    (Trail.assumes_of_level_zero h.valid hidle.level) hnames ⟨none, none⟩ { interval }
  obtain ⟨s₃, hs₃, h₃⟩ := h₂.backtrack 0
  exact ⟨v, _, solve_of_run hopen hls h.budget hnext hs₂ hs₃, (h₃.note _).note _⟩

end Solver
end Cdcl
