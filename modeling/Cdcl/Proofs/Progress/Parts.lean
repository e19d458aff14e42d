import Cdcl.Proofs.Progress.Analysis
import Cdcl.Proofs.Progress.Certificate
import Cdcl.Proofs.Progress.Kernel
import Cdcl.Proofs.Progress.Order
import Cdcl.Proofs.Progress.Restart
import Cdcl.Proofs.Solver.Cleaning

/-!
# Operations on the parts of a solver do not get stuck

A solver is `Ample` if its trail is valid, its tables have room for all variables, the literals
without a reason are decisions or fixed at level 0, no limits are set, and some number of restart
intervals can be taken. It is `Supplied` if its certificate is complete as well, unless the formula is
refuted. Every operation that the additions and the search are made of has a result on a supplied
solver, and leaves a supplied one.
-/

namespace Cdcl
set_option autoImplicit false

namespace Solver

/-- The trail is valid and there is room for all variables, only decisions have no reason, no limits
are set, and `n` restart intervals can be taken. -/
structure Ample (s : Solver) (n : Nat) : Prop where
  valid : s.trail.Valid
  watches : s.kernel.watches.Room s.numVars
  analyzer : s.analyzer.seen.Room s.numVars
  order : s.order.Room s.numVars
  decided : s.trail.Decided
  timeLimit : s.timeLimit = none
  conflictLimit : s.conflictLimit = none
  restarts : s.restarts.Fits n

/-- The certificate is complete as well, unless the formula is refuted. -/
structure Supplied (s : Solver) (n : Nat) : Prop extends Ample s n where
  complete : s.refuted = false → ∀ c, s.certificate = some c → c.Complete s.trail

variable {s s' : Solver} {F : Formula} {n i : Nat} {k : Kernel} {o : Order} {l : Literal}
  {r : Option ClauseRef} {ref : ClauseRef} {refs : List ClauseRef} {e : Stored} {t : Trail}

theorem Ample.mono {m : Nat} (h : s.Ample n) (hle : m ≤ n) : s.Ample m :=
  { h with restarts := h.restarts.mono hle }

theorem Supplied.mono {m : Nat} (h : s.Supplied n) (hle : m ≤ n) : s.Supplied m :=
  ⟨h.toAmple.mono hle, h.complete⟩

/-- Another kernel over the same variables, and another order. -/
theorem Ample.follow (h : s.Ample n) (hvalid : k.trail.Valid) (hvars : k.trail.vars = s.numVars)
    (hwatches : k.watches.Room s.numVars) (ho : o.Room s.numVars) (hdecided : k.trail.Decided) :
    Ample { s with kernel := k, order := o } n := by
  have hnum : Solver.numVars { s with kernel := k, order := o } = s.numVars := hvars
  refine ⟨hvalid, ?_, ?_, ?_, hdecided, h.timeLimit, h.conflictLimit, h.restarts⟩ <;> rw [hnum]
  exacts [hwatches, h.analyzer, ho]

theorem Ample.of_eq (h : s.Ample n) (hkernel : s'.kernel = s.kernel)
    (hanalyzer : s'.analyzer = s.analyzer) (horder : s'.order = s.order) (htime : s'.timeLimit = s.timeLimit)
    (hconflicts : s'.conflictLimit = s.conflictLimit) (hrestarts : s'.restarts = s.restarts) :
    s'.Ample n := by
  have htrail : s'.trail = s.trail := congrArg Kernel.trail hkernel
  have hnum : s'.numVars = s.numVars := congrArg Trail.vars htrail
  refine ⟨htrail ▸ h.valid, ?_, ?_, ?_, htrail ▸ h.decided, htime.trans h.timeLimit,
    hconflicts.trans h.conflictLimit, hrestarts ▸ h.restarts⟩
  · rw [hkernel, hnum]
    exact h.watches
  · rw [hanalyzer, hnum]
    exact h.analyzer
  · rw [horder, hnum]
    exact h.order

theorem Supplied.of_eq (h : s.Supplied n) (hkernel : s'.kernel = s.kernel)
    (hanalyzer : s'.analyzer = s.analyzer) (horder : s'.order = s.order)
    (htime : s'.timeLimit = s.timeLimit) (hconflicts : s'.conflictLimit = s.conflictLimit)
    (hrestarts : s'.restarts = s.restarts) (hcertificate : s'.certificate = s.certificate)
    (hrefuted : s'.refuted = s.refuted) : s'.Supplied n := by
  have htrail : s'.trail = s.trail := congrArg Kernel.trail hkernel
  exact ⟨h.toAmple.of_eq hkernel hanalyzer horder htime hconflicts hrestarts, fun hno c hc =>
    htrail ▸ h.complete (hrefuted.symm.trans hno) c (hcertificate.symm.trans hc)⟩

theorem Supplied.note (h : s.Supplied n) (notice : Notice) : (s.note notice).Supplied n :=
  h.of_eq rfl rfl rfl rfl rfl rfl rfl rfl

theorem Supplied.keepLearnt (h : s.Supplied n) (ref : ClauseRef) : (s.keepLearnt ref).Supplied n :=
  h.of_eq rfl rfl rfl rfl rfl rfl rfl rfl

/-! ## Certificates -/

theorem Logs.ample (hl : Logs s s') (h : s.Ample n) : s'.Ample n := by
  unfold Logs at hl
  exact h.of_eq (hl ▸ rfl) (hl ▸ rfl) (hl ▸ rfl) (hl ▸ rfl) (hl ▸ rfl) (hl ▸ rfl)

theorem certify_succeeds {step : Certificate → Except Fault Certificate}
    (P : Certificate → Prop)
    (h : ∀ c, s.certificate = some c → ∃ c', step c = .ok c' ∧ P c') :
    ∃ s', s.certify step = .ok s' ∧ Logs s s' ∧ ∀ c, s'.certificate = some c → P c := by
  unfold certify
  split
  · next hnone =>
    exact ⟨s, rfl, rfl, fun c hc => absurd (hnone.symm.trans hc) (by simp)⟩
  · next c hc =>
    obtain ⟨c', hc', hP⟩ := h c hc
    exact ⟨_, bind_eq_ok_iff.2 ⟨c', hc', rfl⟩, rfl, fun d hd => Option.some.inj hd ▸ hP⟩

theorem certifyClause_succeeds {step : Certificate → Except Fault (ClauseId × Certificate)}
    (P : Certificate → Prop)
    (h : ∀ c, s.certificate = some c → ∃ i c', step c = .ok (i, c') ∧ P c') :
    ∃ id s', s.certifyClause step = .ok (id, s') ∧ Logs s s' ∧
      ∀ c, s'.certificate = some c → P c := by
  unfold certifyClause
  split
  · next hnone =>
    exact ⟨none, s, rfl, rfl, fun c hc => absurd (hnone.symm.trans hc) (by simp)⟩
  · next c hc =>
    obtain ⟨i, c', hc', hP⟩ := h c hc
    exact ⟨some i, _, bind_eq_ok_iff.2 ⟨_, hc', rfl⟩, rfl, fun d hd => Option.some.inj hd ▸ hP⟩

/-- A step on the certificate that completes it for the present trail. -/
theorem Ample.supplied (h : s.Ample n) (hl : Logs s s')
    (hc : ∀ c, s'.certificate = some c → c.Complete s.trail) : s'.Supplied n :=
  ⟨hl.ample h, fun _ => hl.trail.symm ▸ hc⟩

/-- After a propagation at level 0 the units of all literals can be recorded. -/
theorem Ample.recordRoot (h : s.Ample n) (hs : s.Keeps F) (hk : s.kernel.Sound)
    (hlev : s.trail.level = 0)
    (hc : ∀ c, s.certificate = some c → c.Complete t) (hext : t.Extends s.trail) :
    ∃ s', s.recordRoot = .ok s' ∧ s'.Supplied n := by
  obtain ⟨s', hs', hlogs, hcomplete⟩ :=
    certify_succeeds (s := s) (fun c => c.Complete s.trail)
      fun c hcert => (hc c hcert).recordRoot hk hlev hext (hs.certified c hcert).2
  exact ⟨s', hs', h.supplied hlogs hcomplete⟩

/-! ## Assigning and unassigning -/

/-- Propagation has a result, and what is fixed at level 0 may have no unit yet. -/
theorem Ample.propagate (h : s.Ample n) (hk : s.kernel.Ready) :
    ∃ conflict s', s.propagate = .ok (conflict, s') ∧ s'.Ample n ∧
      s'.certificate = s.certificate := by
  obtain ⟨conflict, k, hp, hroom⟩ := Kernel.propagate_succeeds hk h.watches
  obtain ⟨hext, -, hends⟩ := Kernel.propagate_eq_ok hk hp
  have hvars : k.trail.vars = s.numVars := hext.vars
  have hample := h.follow hends.sound.trail hvars (hvars ▸ hroom) h.order (h.decided.of_extends hext)
  exact ⟨conflict, _, bind_eq_ok_iff.2 ⟨_, hp, rfl⟩, hample.of_eq rfl rfl rfl rfl rfl rfl, rfl⟩

theorem Supplied.backtrack (h : s.Supplied n) (i : Nat) :
    ∃ s', s.backtrack i = .ok s' ∧ s'.Supplied n := by
  have ht : s.trail.Valid := h.valid
  have hrange : ∀ l ∈ (s.trail.undoTo i).2, Order.InRange s.numVars l.var :=
    fun l hl => ht.names_of_holds (ht.mem_undone.1 hl).1
  obtain ⟨o, ho, hroom⟩ := h.order.undoAll hrange
  have hvars : (s.trail.undoTo i).1.vars = s.numVars := Trail.vars_undoTo
  exact ⟨_, bind_eq_ok_iff.2 ⟨o, ho, rfl⟩,
    h.toAmple.follow ht.undoTo hvars h.watches hroom (h.decided.undoTo ht),
    fun hno c hc => (h.complete hno c hc).of_sameRoot hvars (.undoTo ht)⟩

theorem Ample.assert {f : Fault} (h : s.Ample n) (hname : s.trail.Names l)
    (hnone : s.trail.mark? l.var = none) :
    s.assert l r f = .ok (s.setTrail (s.trail.push l r)) :=
  bind_eq_ok_iff.2 ⟨_, h.valid.assign_of_none hname hnone, rfl⟩

theorem Ample.push (h : s.Ample n) (hname : s.trail.Names l) (hnone : s.trail.mark? l.var = none)
    (hr : r = none → s.trail.level = 0) : (s.setTrail (s.trail.push l r)).Ample n := by
  have hample : Ample { s with kernel := { s.kernel with trail := s.trail.push l r } } n :=
    h.follow (h.valid.push hname hnone) rfl h.watches h.order
      (h.decided.push (h.valid.covers hname) hnone hr)
  exact hample.of_eq rfl rfl rfl rfl rfl rfl

/-- Above level 0 no unit is needed. -/
theorem Supplied.push (h : s.Supplied n) (hname : s.trail.Names l)
    (hnone : s.trail.mark? l.var = none) (hlev : 0 < s.trail.level) (ref : ClauseRef) :
    (s.setTrail (s.trail.push l (some ref))).Supplied n :=
  ⟨h.toAmple.push hname hnone (fun href => absurd href (by simp)), fun hno c hc =>
    (h.complete hno c hc).of_sameRoot rfl (.push (h.valid.covers hname) hnone hlev)⟩

/-- A literal is asserted at level 0 and its unit is noted. -/
theorem Supplied.fix {f : Fault} {id : Option ClauseId} (h : s.Supplied n) (hno : s.refuted = false)
    (hlev : s.trail.level = 0) (hname : s.trail.Names l) (hnone : s.trail.mark? l.var = none)
    (hid : s.certificate ≠ none → id ≠ none) :
    ∃ s₁ s', s.assert l none f = .ok s₁ ∧ s₁.certify (fun c => c.setUnit l.var id) = .ok s' ∧
      s'.Supplied n := by
  have hunit : ∀ c, s.certificate = some c →
      ∃ c', c.setUnit l.var id = .ok c' ∧ c'.Complete (s.trail.push l none) := by
    intro c hc
    obtain ⟨i, rfl⟩ := Option.ne_none_iff_exists'.1 (hid (by simp [hc]))
    exact (h.complete hno c hc).setUnit hname (h.valid.covers hname) hnone i
  obtain ⟨s', hs', hlogs, hcomplete⟩ :=
    certify_succeeds (s := s.setTrail (s.trail.push l none)) _ hunit
  exact ⟨_, s', h.assert hname hnone, hs',
    (h.toAmple.push hname hnone fun _ => hlev).supplied hlogs hcomplete⟩

/-! ## Storing and removing -/

theorem Supplied.insertConstraint (h : s.Supplied n)
    (hnames : ∀ l ∈ e.constraint.literals, s.trail.Names l) :
    ∃ ref s', s.insertConstraint e = .ok (ref, s') ∧ s'.Supplied n := by
  obtain ⟨k, hk, hroom⟩ : ∃ k, Kernel.attach { s.kernel with store := (s.store.insert e).2 }
      (s.store.insert e).1 e.constraint = .ok k ∧ k.watches.Room k.trail.vars :=
    Kernel.attach_succeeds h.watches hnames
  have hs' : s.insertConstraint e = .ok ((s.store.insert e).1, { s with kernel := k }) :=
    bind_eq_ok_iff.2 ⟨k, hk, rfl⟩
  obtain ⟨-, w, -, heq⟩ := insertConstraint_eq_ok hs'
  obtain rfl : k = { s.kernel with store := (s.store.insert e).2, watches := w } :=
    congrArg Solver.kernel heq
  exact ⟨_, _, hs', h.toAmple.follow h.valid rfl hroom h.order h.decided, h.complete⟩

/-- The records hold a constraint of the formula that is stored. -/
theorem strikeOff_succeeds (h : e.learnt = false → 0 < s.formulaSize) :
    ∃ s', s.strikeOff e = .ok s' := by
  unfold strikeOff
  cases hlearnt : e.learnt with
  | true => exact ⟨s, rfl⟩
  | false => exact ⟨_, bind_eq_ok_iff.2 ⟨(), require_eq_ok_iff.2 (decide_eq_true (h hlearnt)), rfl⟩⟩

theorem Supplied.removeConstraint (h : s.Supplied n) (hs : s.Keeps F) (hk : s.kernel.Sound)
    (ref : ClauseRef) : ∃ s', s.removeConstraint ref = .ok s' ∧ s'.Supplied n := by
  unfold Solver.removeConstraint
  split
  · exact ⟨s, rfl, h⟩
  · next e he =>
    obtain ⟨k, hdetach, hroom⟩ : ∃ k, Kernel.detach { s.kernel with store := s.store.erase ref }
        ref e.constraint = .ok k ∧ k.watches.Room k.trail.vars :=
      Kernel.detach_succeeds h.watches (hk.named he)
    obtain ⟨w, -, hkernel⟩ := bind_eq_ok_iff.1 hdetach
    obtain rfl := Except.ok.inj hkernel
    obtain ⟨s₁, hs₁, hlogs, hcomplete⟩ := certify_succeeds
      (s := { s with kernel := { s.kernel with store := s.store.erase ref, watches := w } })
      (fun c => c.Complete s.trail) fun c hc => by
        obtain ⟨c', hc', hgrows⟩ := (hs.certified c hc).2.delete_succeeds he
        exact ⟨c', hc', (h.complete hs.undecided c hc).grows hgrows⟩
    have hample : Ample { s with
        kernel := { s.kernel with store := s.store.erase ref, watches := w } } n :=
      h.toAmple.follow h.valid rfl hroom h.order h.decided
    have h₁ : s₁.Supplied n := hample.supplied hlogs hcomplete
    have hsize : s₁.formulaSize = s.formulaSize := by
      rw [show s₁ = _ from hlogs]
    obtain ⟨s₂, hs₂⟩ := strikeOff_succeeds (s := s₁) fun hgiven => by
      rw [hsize, hs.originals]
      exact List.length_pos_of_mem (Store.mem_refs.2 ⟨e, he, hgiven⟩)
    obtain ⟨known, size, -, -, rfl⟩ := strikeOff_eq_ok hs₂
    exact ⟨_, bind_eq_ok_iff.2 ⟨_, hdetach, bind_eq_ok_iff.2 ⟨s₁, hs₁, bind_eq_ok_iff.2 ⟨_, hs₂, rfl⟩⟩⟩,
      h₁.of_eq rfl rfl rfl rfl rfl rfl rfl rfl⟩

/-! ## Activities -/

theorem Bumps.supplied (hb : Bumps s s') (h : s.Supplied n) : s'.Supplied n := by
  obtain ⟨store, inc, -, rfl⟩ := hb
  have hample : Ample { s with kernel := { s.kernel with store } } n :=
    h.toAmple.follow h.valid rfl h.watches h.order h.decided
  exact ⟨hample.of_eq rfl rfl rfl rfl rfl rfl, h.complete⟩

theorem bumpClause_succeeds (he : s.store.get? ref = some e) :
    ∃ s', s.bumpClause ref = .ok s' := by
  unfold bumpClause
  rw [Store.get_eq_ok.2 he]
  dsimp only [bind, Except.bind]
  split <;> exact ⟨_, rfl⟩

theorem bumpLearnts_succeeds (hrefs : ∀ ref ∈ refs, ∃ e, s.store.get? ref = some e) :
    ∃ s', s.bumpLearnts refs = .ok s' := by
  induction refs generalizing s with
  | nil => exact ⟨s, rfl⟩
  | cons ref refs ih =>
    obtain ⟨⟨e, he⟩, hrefs⟩ := List.forall_mem_cons.1 hrefs
    rw [bumpLearnts, Store.get_eq_ok.2 he]
    dsimp only [bind, Except.bind]
    split
    · obtain ⟨s₁, hs₁⟩ := bumpClause_succeeds he
      rw [hs₁]
      refine ih fun r hr => ?_
      obtain ⟨d, hd⟩ := hrefs r hr
      exact ((bumpClause_eq_ok hs₁).same.get? hd).imp fun _ hd => hd.1
    · exact ih hrefs

/-! ## Refutations -/

theorem Ample.rootConflict (h : s.Ample n) (hs : s.Keeps F) (hk : s.kernel.Clash ref)
    (hlev : s.trail.level = 0) (hc : ∀ c, s.certificate = some c → c.Complete t)
    (hext : t.Extends s.trail) : ∃ s', s.rootConflict ref = .ok s' ∧ s'.Supplied n := by
  obtain ⟨s₁, hs₁, h₁⟩ := h.recordRoot hs hk.sound hlev hc hext
  obtain ⟨hkeeps₁, hlogs₁⟩ := hs.recordRoot hk.sound hlev hs₁
  obtain ⟨e, he, -⟩ := hk.violated
  have hderive : ∀ c, s₁.certificate = some c → ∃ i c', c.deriveEmpty e = .ok (i, c') ∧ True := by
    intro c hcert
    have hcomplete := h₁.complete hkeeps₁.undecided c hcert
    have hcert := (hkeeps₁.certified c hcert).2
    rw [hlogs₁.trail] at hcomplete hcert
    rw [hlogs₁.store] at hcert
    obtain ⟨i, c', hc', -⟩ := hcomplete.deriveEmpty hcert hk hlev he
    exact ⟨i, c', hc', trivial⟩
  obtain ⟨id, s₂, hs₂, hlogs₂, -⟩ := certifyClause_succeeds (fun _ => True) hderive
  have h₂ : s₂.Ample n := hlogs₂.ample h₁.toAmple
  refine ⟨_, bind_eq_ok_iff.2 ⟨s₁, hs₁, bind_eq_ok_iff.2 ⟨e, Store.get_eq_ok.2 (hlogs₁.store ▸ he),
    bind_eq_ok_iff.2 ⟨_, hs₂, rfl⟩⟩⟩, ?_, fun hno => absurd hno (by simp [note])⟩
  cases id <;> exact h₂.of_eq rfl rfl rfl rfl rfl rfl

end Solver
end Cdcl
