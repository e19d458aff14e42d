import Cdcl.Proofs.Progress.Searching

/-!
# Additions do not get stuck

Variables can be added as long as there are fewer than 2³⁰, and constraints over known variables are
taken in, recorded and stored or asserted. Additions take no restart interval.
-/

namespace Cdcl.Solver
set_option autoImplicit false

variable {s s' : Solver} {F : Formula} {n count degree : Nat} {l : Literal} {ls : List Literal}
  {raws : List Int} {id : Option ClauseId} {c : Constraint}

/-! ## Variables -/

/-- Fresh variables can be added to any solver, refuted or not. -/
theorem Supplied.newVars (h : s.Supplied n) (hcount : s.numVars + count < Event.varLimit) :
    ∃ s', s.newVars count = .ok s' ∧ s'.Supplied n := by
  obtain ⟨first, k, hk, hroom⟩ := Kernel.newVars_succeeds hcount
  obtain ⟨rfl, t, w, ht, hw, rfl⟩ := Kernel.newVars_eq_ok hk
  have hvars : t.vars = s.numVars + count := (Trail.growTo_eq_ok ht).2.1
  have hvalid : t.Valid := h.valid.growTo (Nat.le_add_right _ _) ht
  have hdecided := h.decided.growTo ht
  by_cases hzero : count = 0
  · subst hzero
    have hsame : t.vars = s.numVars := hvars
    have hroot : s.trail.SameRoot t := .of_mark_eq (Trail.growTo_eq_ok ht).1
    exact ⟨_, bind_eq_ok_iff.2 ⟨_, hk, rfl⟩,
      h.toAmple.follow hvalid hsame (hsame ▸ hroom) h.order hdecided,
      fun hno c hc => (h.complete hno c hc).of_sameRoot hsame hroot⟩
  obtain ⟨analyzer, hanalyzer, hanalyzerRoom⟩ := s.analyzer.grow_succeeds (hvars ▸ hcount)
  obtain ⟨s₁, hs₁, hlogs, hcomplete⟩ := certify_succeeds
    (s := { s with kernel := { s.kernel with trail := t, watches := w }, analyzer })
    (fun c => s.refuted = false → c.Complete t) fun c hc => by
      obtain ⟨c', hc', hcomplete⟩ := c.growTo_succeeds hcount ht
      exact ⟨c', hc', fun hno => hcomplete (h.complete hno c hc)⟩
  have hnum : s₁.numVars = s.trail.vars + count := (congrArg Trail.vars hlogs.trail).trans hvars
  obtain ⟨o, ho, horder⟩ : ∃ o, s₁.order.addVars (varsFrom ⟨s.trail.vars + 1⟩ s₁.numVars) = .ok o ∧
      o.Room s₁.numVars := by
    rw [hnum, varsFrom_eq]
    exact Order.addVars_succeeds (Nat.succ_pos _) (by rw [Nat.succ_add]; exact hcount)
      (fun hno => absurd hno hzero) fun _ => by omega
  have hs' : s.newVars count = .ok { s₁ with order := o } :=
    bind_eq_ok_iff.2 ⟨_, hk, by
      rw [if_neg hzero]
      exact bind_eq_ok_iff.2 ⟨analyzer, hanalyzer,
        bind_eq_ok_iff.2 ⟨s₁, hs₁, bind_eq_ok_iff.2 ⟨o, ho, rfl⟩⟩⟩⟩
  obtain ⟨cert, journal, rfl⟩ : ∃ cert journal, s₁ = { s with
      kernel := { s.kernel with trail := t, watches := w }, analyzer, certificate := cert, journal } :=
    ⟨_, _, hlogs⟩
  exact ⟨_, hs', ⟨hvalid, hroom, hanalyzerRoom, horder, hdecided, h.timeLimit, h.conflictLimit,
    h.restarts⟩, fun hno c hc => hcomplete c hc hno⟩

/-! ## Consequences at level 0 -/

theorem Supplied.propagateRoot (h : s.Supplied n) (hs : s.Idle F) :
    ∃ o s', s.propagateRoot = .ok (o, s') ∧ s'.Supplied n := by
  obtain ⟨conflict, s₁, hs₁, h₁, hcertificate⟩ := h.propagate hs.ready
  obtain ⟨hkeeps₁, hends, hext, -⟩ := hs.keeps.propagate hs.ready hs₁
  have hlevel : s₁.trail.level = 0 := hext.level.trans hs.level
  have hc : ∀ c, s₁.certificate = some c → c.Complete s.trail := fun c hc =>
    h.complete hs.keeps.undecided c (hcertificate ▸ hc)
  cases conflict with
  | none =>
    obtain ⟨s₂, hs₂, h₂⟩ := h₁.recordRoot hkeeps₁ hends.sound hlevel hc hext
    exact ⟨_, s₂, bind_eq_ok_iff.2 ⟨_, hs₁, bind_eq_ok_iff.2 ⟨s₂, hs₂, rfl⟩⟩, h₂⟩
  | some ref =>
    obtain ⟨s₂, hs₂, h₂⟩ := h₁.rootConflict hkeeps₁ hends hlevel hc hext
    exact ⟨_, s₂, bind_eq_ok_iff.2 ⟨_, hs₁, bind_eq_ok_iff.2 ⟨s₂, hs₂, rfl⟩⟩, h₂⟩

theorem Supplied.assertUnit (h : s.Supplied n) (hs : s.Idle F) (hname : s.trail.Names l)
    (hnone : s.trail.mark? l.var = none) (ho : s.Offers id [l]) :
    ∃ o s', s.assertUnit l id = .ok (o, s') ∧ s'.Supplied n := by
  have hid : s.certificate ≠ none → id ≠ none := by
    intro hsome
    obtain ⟨c, hc⟩ := Option.ne_none_iff_exists'.1 hsome
    obtain ⟨-, i, rfl, -⟩ := ho c hc
    simp
  obtain ⟨s₁, s₂, hs₁, hs₂, h₂⟩ :=
    h.fix (f := .falseUnit l) hs.keeps.undecided hs.level hname hnone hid
  obtain ⟨hidle₂, -⟩ := hs.fix hname hnone ho (fun _ => Formula.holds_concat_unit) hs₁ hs₂
  obtain ⟨o, s', hs', h'⟩ := h₂.propagateRoot hidle₂
  exact ⟨o, s', bind_eq_ok_iff.2 ⟨s₁, hs₁, bind_eq_ok_iff.2 ⟨s₂, hs₂, hs'⟩⟩, h'⟩

/-- Without a certificate several unassigned literals can be asserted. -/
theorem Supplied.assertAll (h : s.Supplied n) (hcert : s.certificate = none)
    (hlev : s.trail.level = 0) (hopen : Intake.Open s.trail ls)
    (hnames : ∀ l ∈ ls, s.trail.Names l) : ∃ s', s.assertAll ls = .ok s' ∧ s'.Supplied n := by
  induction ls generalizing s with
  | nil => exact ⟨s, rfl, h⟩
  | cons l ls ih =>
    obtain ⟨hname, hnames⟩ := List.forall_mem_cons.1 hnames
    have hnone := hopen.unassigned l List.mem_cons_self
    have hdistinct := List.nodup_cons.1 hopen.distinct
    have h₁ : (s.setTrail (s.trail.push l none)).Supplied n :=
      ⟨h.toAmple.push hname hnone fun _ => hlev,
        fun _ c hc => absurd (hcert.symm.trans hc) (by simp)⟩
    have hopen₁ : Intake.Open (s.trail.push l none) ls := by
      refine ⟨fun k hk => ?_, hdistinct.2⟩
      rw [Trail.mark?_push_of_ne fun heq => hdistinct.1 (heq ▸ List.mem_map_of_mem hk)]
      exact hopen.unassigned k (List.mem_cons_of_mem l hk)
    obtain ⟨s', hs', h'⟩ := ih h₁ hcert hlev hopen₁ hnames
    exact ⟨s', bind_eq_ok_iff.2 ⟨_, h.assert hname hnone, hs'⟩, h'⟩

/-! ## Recording and storing -/

theorem Supplied.newClause (h : s.Supplied n) (hs : s.Idle F) (ls : List Literal) :
    ∃ id s', s.certifyClause (fun p => p.newClause ls s.trail) = .ok (id, s') ∧ s'.Supplied n := by
  obtain ⟨id, s', hs', hlogs, hcomplete⟩ := certifyClause_succeeds (fun c => c.Complete s.trail)
    fun c hc => (h.complete hs.keeps.undecided c hc).newClause (hs.keeps.certified c hc).2 h.valid
      hs.level ls
  exact ⟨id, s', hs', h.toAmple.supplied hlogs hcomplete⟩

theorem Supplied.storeGiven (h : s.Supplied n) (hs : s.Idle F)
    (hnames : ∀ l ∈ c.literals, s.trail.Names l) (given : List Literal) :
    ∃ what s', s.storeGiven c given = .ok (what, s') ∧ s'.Supplied n := by
  unfold Solver.storeGiven
  split
  · exact ⟨_, _, rfl, h.note _⟩
  · obtain ⟨id, s₁, hs₁, h₁⟩ := h.newClause hs given
    have htrail : s₁.trail = s.trail := (certifyClause_eq_ok hs₁).1.trail
    obtain ⟨ref, s₂, hs₂, h₂⟩ := h₁.insertConstraint (e := ⟨c, 0.0, false, id⟩) (htrail ▸ hnames)
    exact ⟨_, _, bind_eq_ok_iff.2 ⟨_, hs₁, bind_eq_ok_iff.2 ⟨_, hs₂, rfl⟩⟩,
      h₂.of_eq rfl rfl rfl rfl rfl rfl rfl rfl⟩

/-- Two or more literals of distinct variables are stored as a clause. -/
theorem Supplied.storeClause (h : s.Supplied n) (hs : s.Idle F) (hlen : 2 ≤ ls.length)
    (hdistinct : (ls.map Literal.var).Nodup) (hnames : ∀ l ∈ ls, s.trail.Names l)
    (given : List Literal) :
    ∃ what c s', Constraint.clause ls = .ok c ∧ s.storeGiven c given = .ok (what, s') ∧
      s'.Supplied n := by
  obtain ⟨c, hc⟩ := Constraint.clause_succeeds hlen hdistinct
  obtain ⟨-, -, rfl⟩ := Constraint.clause_eq_ok hc hdistinct
  obtain ⟨what, s', hs', h'⟩ := h.storeGiven hs hnames given
  exact ⟨what, c, s', hc, hs', h'⟩

/-! ## Additions -/

/-- Once the formula is refuted nothing is left to complete. -/
theorem Supplied.refute (h : s.Supplied n) : Supplied { s with refuted := true } n :=
  ⟨h.toAmple.of_eq rfl rfl rfl rfl rfl rfl, fun hno => absurd hno (by simp)⟩

theorem Supplied.addLiterals (h : s.Supplied n) (hs : s.refuted = false → s.Idle F)
    (hsized : s.Sized) (hnames : ∀ l ∈ ls, s.trail.Names l) :
    ∃ r s', s.addLiterals ls = .ok (r, s') ∧ s'.Supplied n := by
  unfold Solver.addLiterals
  by_cases hrefuted : s.refuted = true
  · rw [if_pos hrefuted]
    exact ⟨_, s, rfl, h⟩
  rw [if_neg hrefuted]
  have hidle := hs (by simpa using hrefuted)
  obtain ⟨form, hform⟩ := Intake.clause_succeeds h.valid hnames
  match form, hform, Intake.clause_eq_ok hform with
  | .error cause, hform, _ =>
    obtain ⟨id, s₁, hs₁, h₁⟩ := h.newClause hidle ls
    exact ⟨_, _, bind_eq_ok_iff.2 ⟨_, hform, bind_eq_ok_iff.2 ⟨_, hs₁, rfl⟩⟩, h₁.refute.note _⟩
  | .ok .satisfied, hform, _ => exact ⟨_, s, bind_eq_ok_iff.2 ⟨_, hform, rfl⟩, h⟩
  | .ok (.unit l), hform, htaken =>
    have hleft : Intake.Remains s.trail ls [l] := htaken
    obtain ⟨id, s₁, hs₁, h₁⟩ := h.newClause hidle ls
    obtain ⟨hlogs, hidle₁, ho⟩ := hidle.newClause hsized hnames hleft (by simp) hs₁
    obtain ⟨o, s₂, hs₂, h₂⟩ := h₁.assertUnit hidle₁
      (hlogs.trail.symm ▸ hnames l ((hleft.members l).1 List.mem_cons_self).1)
      (hlogs.trail.symm ▸ hleft.unassigned l List.mem_cons_self) ho
    exact ⟨_, s₂, bind_eq_ok_iff.2 ⟨_, hform, bind_eq_ok_iff.2 ⟨_, hs₁, bind_eq_ok_iff.2
      ⟨_, hs₂, rfl⟩⟩⟩, h₂⟩
  | .ok (.clause rest), hform, htaken =>
    obtain ⟨hleft, hlen⟩ : Intake.Remains s.trail ls rest ∧ 2 ≤ rest.length := htaken
    obtain ⟨what, c, s₁, hc, hs₁, h₁⟩ := h.storeClause hidle hlen hleft.distinct
      (fun l hl => hnames l ((hleft.members l).1 hl).1) ls
    exact ⟨_, s₁, bind_eq_ok_iff.2 ⟨_, hform, bind_eq_ok_iff.2 ⟨c, hc, bind_eq_ok_iff.2
      ⟨_, hs₁, rfl⟩⟩⟩, h₁⟩

theorem Supplied.addClause (h : s.Supplied n) (hs : s.refuted = false → s.Idle F)
    (hsized : s.Sized) (hraws : InRange s.numVars raws) :
    ∃ r s', s.addClause raws = .ok (r, s') ∧ s'.Supplied n := by
  obtain ⟨ls, hls⟩ := literals_succeeds hraws
  obtain ⟨-, hnames⟩ := literals_eq_ok hsized.signed hls
  obtain ⟨r, s', hs', h'⟩ := h.addLiterals hs hsized hnames
  exact ⟨r, s', bind_eq_ok_iff.2 ⟨ls, hls, hs'⟩, h'⟩

/-- An at-least constraint whose literals fit into memory can be added when no certificate is kept. -/
theorem Supplied.addCardinality (h : s.Supplied n) (hs : s.Idle F) (hcert : s.certificate = none)
    (hnames : ∀ l ∈ ls, s.trail.Names l) (hdegree : degree < Word.addressable)
    (hlen : ls.length < Word.addressable) :
    ∃ r s', s.addCardinality ls degree = .ok (r, s') ∧ s'.Supplied n := by
  obtain ⟨form, hform⟩ := Intake.atLeast_succeeds h.valid hnames hdegree hlen
  have hcounted : ∀ l ∈ Intake.counted s.trail ls, s.trail.Names l := fun l hl =>
    hnames l (Intake.counted_subset hl)
  have hoffers : ∀ l, s.Offers none [l] := fun l c hc => absurd (hcert.symm.trans hc) (by simp)
  match form, hform, Intake.atLeast_eq_ok hdegree hform with
  | .error cause, hform, _ => exact ⟨_, _, bind_eq_ok_iff.2 ⟨_, hform, rfl⟩, h.refute⟩
  | .ok .satisfied, hform, _ => exact ⟨_, s, bind_eq_ok_iff.2 ⟨_, hform, rfl⟩, h⟩
  | .ok (.clause .satisfied), hform, _ => exact ⟨_, s, bind_eq_ok_iff.2 ⟨_, hform, rfl⟩, h⟩
  | .ok (.units units), hform, htaken =>
    obtain ⟨hopen, hsub, hcount⟩ := htaken
    have hunits : ∀ l ∈ units, s.trail.Names l := fun l hl => hcounted l (hsub hl)
    obtain ⟨s₁, hs₁, h₁⟩ := h.assertAll hcert hs.level hopen hunits
    obtain ⟨-, hidle₁⟩ := hs.assertAll hcert hopen hunits
      (hs.holds_concat (d := ⟨degree, Intake.counted s.trail ls⟩) hcount) hs₁
    obtain ⟨o, s₂, hs₂, h₂⟩ := h₁.propagateRoot hidle₁
    exact ⟨_, s₂, bind_eq_ok_iff.2 ⟨_, hform, bind_eq_ok_iff.2 ⟨s₁, hs₁, bind_eq_ok_iff.2
      ⟨_, hs₂, rfl⟩⟩⟩, h₂⟩
  | .ok (.clause (.unit l)), hform, htaken =>
    obtain ⟨kept, hsub, hkept, -⟩ := htaken
    have hleft : Intake.Remains s.trail kept [l] := hkept
    obtain ⟨o, s₁, hs₁, h₁⟩ := h.assertUnit hs
      (hcounted l (hsub ((hleft.members l).1 List.mem_cons_self).1))
      (hleft.unassigned l List.mem_cons_self) (hoffers l)
    exact ⟨_, s₁, bind_eq_ok_iff.2 ⟨_, hform, bind_eq_ok_iff.2 ⟨_, hs₁, rfl⟩⟩, h₁⟩
  | .ok (.clause (.clause rest)), hform, htaken =>
    obtain ⟨kept, hsub, ⟨hleft, hlen⟩, -⟩ := htaken
    obtain ⟨what, c, s₁, hc, hs₁, h₁⟩ := h.storeClause hs hlen hleft.distinct
      (fun l hl => hcounted l (hsub ((hleft.members l).1 hl).1)) ls
    exact ⟨_, s₁, bind_eq_ok_iff.2 ⟨_, hform, bind_eq_ok_iff.2 ⟨c, hc, bind_eq_ok_iff.2
      ⟨_, hs₁, rfl⟩⟩⟩, h₁⟩
  | .ok (.atLeast rest d), hform, htaken =>
    obtain ⟨hopen, hsub, -⟩ := htaken
    obtain ⟨hpos, hlt⟩ := Intake.degree_lt_length hform
    obtain ⟨c, hc⟩ := Constraint.atLeastOf_succeeds hpos hlt
    obtain ⟨-, -, rfl⟩ := Constraint.atLeastOf_eq_ok hc hopen.distinct
    obtain ⟨what, s₁, hs₁, h₁⟩ := h.storeGiven hs (fun l hl => hcounted l (hsub hl)) c.literals
    exact ⟨_, s₁, bind_eq_ok_iff.2 ⟨_, hform, bind_eq_ok_iff.2 ⟨c, hc, bind_eq_ok_iff.2
      ⟨_, hs₁, rfl⟩⟩⟩, h₁⟩

theorem Supplied.addAtLeast (h : s.Supplied n) (hs : s.refuted = false → s.Idle F)
    (hsized : s.Sized) (hraws : InRange s.numVars raws) (hdegree : degree < Word.addressable)
    (hlen : raws.length < Word.addressable) :
    ∃ r s', s.addAtLeast raws degree = .ok (r, s') ∧ s'.Supplied n := by
  obtain ⟨ls, hls⟩ := literals_succeeds hraws
  obtain ⟨rfl, hnames⟩ := literals_eq_ok hsized.signed hls
  unfold Solver.addAtLeast
  rw [hls]
  dsimp only [bind, Except.bind]
  by_cases hrefuted : s.refuted = true
  · rw [if_pos hrefuted]
    exact ⟨_, s, rfl, h⟩
  rw [if_neg hrefuted]
  split
  · split
    · exact ⟨_, s, rfl, h⟩
    · exact h.addLiterals hs hsized hnames
    · exact ⟨_, s, rfl, h⟩
  · next hcert =>
    exact h.addCardinality (hs (by simpa using hrefuted)) (by simpa using hcert) hnames hdegree
      (by rwa [List.length_map])

end Cdcl.Solver
