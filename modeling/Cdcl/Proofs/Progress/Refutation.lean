import Cdcl.Proofs.Progress.Addition
import Cdcl.Proofs.Solver.Fixpoint

/-!
# What a refutation leaves behind

Between two calls a solver is `Documented`: its parts fit together at level 0, and its certificate, if
one is kept, backs what is stored and knows the unit of every literal. Idle solvers are, and so are
those that have just refuted their formula: the literals of the violated constraint get their units
before the empty clause is derived, and a clause without literals is recorded like any other.
-/

namespace Cdcl.Solver
set_option autoImplicit false

/-- The parts fit together at level 0, and the certificate backs the constraints and knows all units. -/
structure Documented (s : Solver) : Prop where
  firm : s.kernel.Firm 0
  level : s.trail.level = 0
  certified : ∀ c, s.certificate = some c → c.Certifies s.trail s.store ∧ c.Complete s.trail

variable {s s' : Solver} {F : Formula} {n count degree : Nat} {t : Trail} {l : Literal}
  {ls A : List Literal} {ref : ClauseRef} {id : Option ClauseId} {raws : List Int}
  {o : Except SolverError Unit} {a : Added} {b : Budget} {r : Round} {out : Outcome}

theorem Documented.of_eq (h : s.Documented) (hkernel : s'.kernel = s.kernel)
    (hcertificate : s'.certificate = s.certificate) : s'.Documented where
  firm := hkernel ▸ h.firm
  level := (congrArg (fun k => k.trail.level) hkernel).trans h.level
  certified := by
    unfold Solver.trail Solver.store
    rw [hkernel, hcertificate]
    exact h.certified

theorem Logs.documented (hl : Logs s s') (hk : s.kernel.Firm 0) (hlev : s.trail.level = 0)
    (hc : ∀ c, s'.certificate = some c → c.Certifies s.trail s.store ∧ c.Complete s.trail) :
    s'.Documented where
  firm := hl.kernel ▸ hk
  level := (congrArg Trail.level hl.trail).trans hlev
  certified := by
    rw [hl.trail, hl.store]
    exact hc

theorem Idle.documented (h : s.Idle F) (hs : s.Supplied n) : s.Documented where
  firm := ⟨h.ready.sound, h.ready.indexed, h.ready.stable_all⟩
  level := h.level
  certified := fun c hc => ⟨(h.keeps.certified c hc).2, hs.complete h.keeps.undecided c hc⟩

/-! ## Conflicts at level 0 -/

/-- The units are recorded, and then the empty clause. -/
theorem Ample.documented_of_rootConflict (h : s.Ample n) (hs : s.Keeps F) (hk : s.kernel.Clash ref)
    (hlev : s.trail.level = 0) (hc : ∀ c, s.certificate = some c → c.Complete t)
    (hext : t.Extends s.trail) (hr : s.rootConflict ref = .ok s') : s'.Documented := by
  obtain ⟨s₁, hs₁, hr⟩ := bind_eq_ok_iff.1 hr
  obtain ⟨_, hsame, h₁⟩ := h.recordRoot hs hk.sound hlev hc hext
  obtain rfl := Except.ok.inj (hs₁.symm.trans hsame)
  obtain ⟨e, he, hr⟩ := bind_eq_ok_iff.1 hr
  obtain ⟨⟨id, s₂⟩, hs₂, hr⟩ := bind_eq_ok_iff.1 hr
  obtain ⟨hkeeps₁, hlogs₁⟩ := hs.recordRoot hk.sound hlev hs₁
  rw [Store.get_eq_ok, hlogs₁.store] at he
  have hfirm : s.kernel.Firm 0 := ⟨hk.sound, hk.indexed, hk.stable.mono (Nat.zero_le _)⟩
  have h₂ : s₂.Documented := by
    obtain ⟨hlogs₂, ⟨hnone, rfl⟩ | ⟨c, c', i, hc₁, hc', rfl, rfl⟩⟩ := certifyClause_eq_ok hs₂
    · exact hlogs₁.documented hfirm hlev fun d hd => absurd (hnone.symm.trans hd) (by simp)
    · refine hlogs₂.documented (hlogs₁.kernel ▸ hfirm) (hlogs₁.trail ▸ hlev) fun d hd => ?_
      obtain rfl : c' = d := Option.some.inj hd
      have hcert := (hkeeps₁.certified c hc₁).2
      have hcomplete := h₁.complete hkeeps₁.undecided c hc₁
      rw [hlogs₁.trail, hlogs₁.store] at hcert ⊢
      rw [hlogs₁.trail] at hcomplete
      obtain ⟨_, _, hsame, hgrows⟩ := hcomplete.deriveEmpty hcert hk hlev he
      obtain ⟨-, rfl⟩ := Prod.mk.inj (Except.ok.inj (hsame.symm.trans hc'))
      exact ⟨(hcert.deriveEmpty hk he hc').2.certifies, hcomplete.grows hgrows⟩
  obtain rfl := Except.ok.inj hr
  cases id <;> exact h₂.of_eq rfl rfl

theorem Supplied.documented_of_propagateRoot (h : s.Supplied n) (hs : s.Idle F)
    (hr : s.propagateRoot = .ok (o, s')) : s'.Documented := by
  obtain ⟨_, _, hsame, h'⟩ := h.propagateRoot hs
  obtain ⟨-, rfl⟩ := Prod.mk.inj (Except.ok.inj (hsame.symm.trans hr))
  obtain ⟨⟨conflict, s₁⟩, hs₁, hr'⟩ := bind_eq_ok_iff.1 hr
  cases conflict with
  | none =>
    obtain ⟨s₂, hs₂, hr'⟩ := bind_eq_ok_iff.1 hr'
    obtain ⟨rfl, rfl⟩ := Prod.mk.inj (Except.ok.inj hr')
    exact (hs.propagateRoot hr).2.documented h'
  | some ref =>
    obtain ⟨s₂, hs₂, hr'⟩ := bind_eq_ok_iff.1 hr'
    obtain ⟨rfl, rfl⟩ := Prod.mk.inj (Except.ok.inj hr')
    obtain ⟨_, _, hsame, h₁, hcertificate⟩ := h.propagate hs.ready
    obtain ⟨rfl, rfl⟩ := Prod.mk.inj (Except.ok.inj (hsame.symm.trans hs₁))
    obtain ⟨hkeeps₁, hends, hext, -⟩ := hs.keeps.propagate hs.ready hs₁
    exact h₁.documented_of_rootConflict hkeeps₁ hends (hext.level.trans hs.level)
      (fun c hc => h.complete hs.keeps.undecided c (hcertificate ▸ hc)) hext hs₂

theorem Supplied.documented_of_assertUnit (h : s.Supplied n) (hs : s.Idle F)
    (hname : s.trail.Names l) (hnone : s.trail.mark? l.var = none) (ho : s.Offers id [l])
    (hr : s.assertUnit l id = .ok (o, s')) : s'.Documented := by
  obtain ⟨s₁, hs₁, hr⟩ := bind_eq_ok_iff.1 hr
  obtain ⟨s₂, hs₂, hr⟩ := bind_eq_ok_iff.1 hr
  have hid : s.certificate ≠ none → id ≠ none := by
    intro hsome
    obtain ⟨c, hc⟩ := Option.ne_none_iff_exists'.1 hsome
    obtain ⟨-, i, rfl, -⟩ := ho c hc
    simp
  obtain ⟨_, _, hsame₁, hsame₂, h₂⟩ :=
    h.fix (f := .falseUnit l) hs.keeps.undecided hs.level hname hnone hid
  obtain rfl := Except.ok.inj (hsame₁.symm.trans hs₁)
  obtain rfl := Except.ok.inj (hsame₂.symm.trans hs₂)
  obtain ⟨hidle₂, -⟩ := hs.fix hname hnone ho (fun _ => Formula.holds_concat_unit) hs₁ hs₂
  exact h₂.documented_of_propagateRoot hidle₂ hr

/-! ## Additions -/

theorem Supplied.documented_of_newClause (h : s.Supplied n) (hs : s.Idle F) (hsized : s.Sized)
    (hnames : ∀ l ∈ ls, s.trail.Names l) (hopen : ∀ l ∈ ls, s.trail.holds l = false)
    (hr : s.certifyClause (fun p => p.newClause ls s.trail) = .ok (id, s')) : s'.Documented := by
  have hdoc := hs.documented h
  obtain ⟨_, _, hsame, h'⟩ := h.newClause hs ls
  obtain ⟨-, rfl⟩ := Prod.mk.inj (Except.ok.inj (hsame.symm.trans hr))
  obtain ⟨hlogs, ⟨hnone, rfl⟩ | ⟨c, c', i, hc, hc', rfl, rfl⟩⟩ := certifyClause_eq_ok hr
  · exact hdoc
  · refine hlogs.documented hdoc.firm hdoc.level fun d hd => ?_
    obtain rfl := Option.some.inj hd
    obtain ⟨es, q, hback⟩ := (hdoc.certified c hc).1
    have hfit : ∀ l ∈ ls, Event.LiteralFits l := fun l hl =>
      ⟨(hnames l hl).1, Nat.lt_of_le_of_lt (hnames l hl).2 (hsized.recorded (by simp [hc]))⟩
    exact ⟨(hback.newClause hs.ready.sound.trail hfit hopen hc').1.certifies,
      h'.complete hs.keeps.undecided _ rfl⟩

/-- A clause that is taken leaves an idle solver; a refused one was recorded. -/
theorem Supplied.documented_of_addLiterals (h : s.Supplied n) (hs : s.Idle F) (hsized : s.Sized)
    (hnames : ∀ l ∈ ls, s.trail.Names l) (hr : s.addLiterals ls = .ok (a, s')) :
    s'.Documented := by
  obtain ⟨_, _, hsame, h'⟩ := h.addLiterals (fun _ => hs) hsized hnames
  obtain ⟨-, rfl⟩ := Prod.mk.inj (Except.ok.inj (hsame.symm.trans hr))
  have htakes := (hs.addLiterals hsized hnames hr).2
  cases a with
  | ok what => exact Idle.documented htakes h'
  | error e =>
    unfold Solver.addLiterals at hr
    rw [if_neg (by simp [hs.keeps.undecided])] at hr
    obtain ⟨form, hform, hr⟩ := bind_eq_ok_iff.1 hr
    have htaken := Intake.clause_eq_ok hform
    have hvalid : s.trail.Valid := hs.ready.sound.trail
    split at hr
    · obtain ⟨⟨id, s₁⟩, hs₁, hr⟩ := bind_eq_ok_iff.1 hr
      obtain ⟨-, rfl⟩ := Prod.mk.inj (Except.ok.inj hr)
      exact (h.documented_of_newClause hs hsized hnames
        (fun l hl => by simpa using hvalid.consistent (htaken l hl)) hs₁).of_eq rfl rfl
    · simp at hr
    · next l =>
      have hleft : Intake.Remains s.trail ls [l] := htaken
      obtain ⟨⟨id, s₁⟩, hs₁, hr⟩ := bind_eq_ok_iff.1 hr
      obtain ⟨⟨o, s₂⟩, hs₂, hr⟩ := bind_eq_ok_iff.1 hr
      obtain ⟨-, rfl⟩ := Prod.mk.inj (Except.ok.inj hr)
      obtain ⟨_, _, hsame, h₁⟩ := h.newClause hs ls
      obtain ⟨-, rfl⟩ := Prod.mk.inj (Except.ok.inj (hsame.symm.trans hs₁))
      obtain ⟨hlogs, hidle₁, ho⟩ := hs.newClause hsized hnames hleft (by simp) hs₁
      exact h₁.documented_of_assertUnit hidle₁
        (hlogs.trail.symm ▸ hnames l ((hleft.members l).1 List.mem_cons_self).1)
        (hlogs.trail.symm ▸ hleft.unassigned l List.mem_cons_self) ho hs₂
    · obtain ⟨c, -, hr⟩ := bind_eq_ok_iff.1 hr
      obtain ⟨⟨what, s₁⟩, -, hr⟩ := bind_eq_ok_iff.1 hr
      simp at hr

theorem Supplied.documented_of_addCardinality (h : s.Supplied n) (hs : s.Idle F) (hsized : s.Sized)
    (hcert : s.certificate = none) (hnames : ∀ l ∈ ls, s.trail.Names l)
    (hdegree : degree < Word.addressable) (hlen : ls.length < Word.addressable)
    (hr : s.addCardinality ls degree = .ok (a, s')) : s'.Documented := by
  obtain ⟨_, _, hsame, h'⟩ := h.addCardinality hs hcert hnames hdegree hlen
  obtain ⟨-, rfl⟩ := Prod.mk.inj (Except.ok.inj (hsame.symm.trans hr))
  have htakes := (hs.addCardinality_counted hsized hcert hnames hdegree hr).2
  cases a with
  | ok what => exact Idle.documented htakes h'
  | error e =>
    have hcounted : ∀ l ∈ Intake.counted s.trail ls, s.trail.Names l := fun l hl =>
      hnames l (Intake.counted_subset hl)
    obtain ⟨form, hform, hr⟩ := bind_eq_ok_iff.1 hr
    have htaken := Intake.atLeast_eq_ok hdegree hform
    split at hr
    · obtain ⟨-, rfl⟩ := Prod.mk.inj (Except.ok.inj hr)
      exact (hs.documented h).of_eq rfl rfl
    · simp at hr
    · simp at hr
    · next units =>
      obtain ⟨hopen, hsub, hcount⟩ := htaken
      obtain ⟨s₁, hs₁, hr⟩ := bind_eq_ok_iff.1 hr
      obtain ⟨⟨o, s₂⟩, hs₂, hr⟩ := bind_eq_ok_iff.1 hr
      obtain ⟨-, rfl⟩ := Prod.mk.inj (Except.ok.inj hr)
      have hunits : ∀ l ∈ units, s.trail.Names l := fun l hl => hcounted l (hsub hl)
      obtain ⟨_, hsame, h₁⟩ := h.assertAll hcert hs.level hopen hunits
      obtain rfl := Except.ok.inj (hsame.symm.trans hs₁)
      obtain ⟨-, hidle₁⟩ := hs.assertAll hcert hopen hunits
        (hs.holds_concat (d := ⟨degree, Intake.counted s.trail ls⟩) hcount) hs₁
      exact h₁.documented_of_propagateRoot hidle₁ hs₂
    · next l =>
      obtain ⟨kept, hsub, hkept, -⟩ := htaken
      have hleft : Intake.Remains s.trail kept [l] := hkept
      obtain ⟨⟨o, s₁⟩, hs₁, hr⟩ := bind_eq_ok_iff.1 hr
      obtain ⟨-, rfl⟩ := Prod.mk.inj (Except.ok.inj hr)
      exact h.documented_of_assertUnit hs
        (hcounted l (hsub ((hleft.members l).1 List.mem_cons_self).1))
        (hleft.unassigned l List.mem_cons_self)
        (fun c hc => absurd (hcert.symm.trans hc) (by simp)) hs₁
    · obtain ⟨c, -, hr⟩ := bind_eq_ok_iff.1 hr
      obtain ⟨⟨what, s₁⟩, -, hr⟩ := bind_eq_ok_iff.1 hr
      simp at hr
    · obtain ⟨c, -, hr⟩ := bind_eq_ok_iff.1 hr
      obtain ⟨⟨what, s₁⟩, -, hr⟩ := bind_eq_ok_iff.1 hr
      simp at hr

theorem Supplied.documented_of_addAtLeast (h : s.Supplied n) (hs : s.Idle F) (hsized : s.Sized)
    (hdegree : degree < Word.addressable) (hlen : raws.length < Word.addressable)
    (hr : s.addAtLeast raws degree = .ok (a, s')) : s'.Documented := by
  obtain ⟨ls, hls, hr⟩ := bind_eq_ok_iff.1 hr
  obtain ⟨rfl, hnames⟩ := literals_eq_ok hsized.signed hls
  rw [if_neg (by simp [hs.keeps.undecided])] at hr
  split at hr
  · split at hr
    · obtain ⟨-, rfl⟩ := Prod.mk.inj (Except.ok.inj hr)
      exact hs.documented h
    · exact h.documented_of_addLiterals hs hsized hnames hr
    · obtain ⟨-, rfl⟩ := Prod.mk.inj (Except.ok.inj hr)
      exact hs.documented h
  · next hcert =>
    exact h.documented_of_addCardinality hs hsized (by simpa using hcert) hnames hdegree
      (by rwa [List.length_map]) hr

/-- New variables make room, whether the formula is refuted or not. -/
theorem Documented.newVars (h : s.Documented) (hcount : s.numVars + count < Event.varLimit)
    (hr : s.newVars count = .ok s') : s'.Documented := by
  obtain ⟨⟨first, k⟩, hk, hr⟩ := bind_eq_ok_iff.1 hr
  obtain ⟨rfl, t, w, ht, hw, rfl⟩ := Kernel.newVars_eq_ok hk
  obtain ⟨hmarks, hvars, -, hlimits, -, hholds, hlevels, -⟩ := Trail.growTo_eq_ok ht
  have hfirm : Kernel.Firm { s.kernel with trail := t, watches := w } 0 :=
    h.firm.growTo (Nat.le_add_right _ _) ht hw
  have hlevel : t.level = 0 := (congrArg Array.size hlimits).trans h.level
  have hretains : s.trail.Retains t := .of_eq hholds hlevels
  have hcovered : Certificate.Covered s.store s.store := .of_alike (.refl _)
  dsimp only at hr
  split at hr
  · next hzero =>
    obtain rfl := Except.ok.inj hr
    have hvars : t.vars = s.trail.vars := by
      have hcount : count = 0 := by simpa using hzero
      exact hvars.trans (by rw [hcount]; rfl)
    exact ⟨hfirm, hlevel, fun c hc => (h.certified c hc).imp (·.mono hretains hcovered)
      (·.of_sameRoot hvars (.of_mark_eq hmarks))⟩
  · obtain ⟨analyzer, -, hr⟩ := bind_eq_ok_iff.1 hr
    obtain ⟨s₁, hs₁, hr⟩ := bind_eq_ok_iff.1 hr
    obtain ⟨o, -, hr⟩ := bind_eq_ok_iff.1 hr
    obtain rfl := Except.ok.inj hr
    obtain ⟨hlogs, hcases⟩ := certify_eq_ok hs₁
    refine Documented.of_eq (s := s₁) (hlogs.documented hfirm hlevel fun d hd => ?_) rfl rfl
    rcases hcases with ⟨hnone, rfl⟩ | ⟨c, c', hc, hc', rfl⟩
    · exact absurd (hnone.symm.trans hd) (by simp)
    · obtain rfl := Option.some.inj hd
      obtain ⟨hcert, hcomplete⟩ := h.certified c hc
      obtain ⟨_, hsame, hgrown⟩ := c.growTo_succeeds hcount ht
      obtain rfl := Except.ok.inj (hsame.symm.trans hc')
      exact ⟨(hcert.mono hretains hcovered).growTo hc', hgrown hcomplete⟩

/-! ## Searches -/

theorem refuted_of_decideOn (hr : decideOn r l s = .ok (out, s')) : s'.refuted = s.refuted := by
  obtain ⟨t, -, hr⟩ := bind_eq_ok_iff.1 hr
  obtain ⟨-, rfl⟩ := Prod.mk.inj (Except.ok.inj hr)
  rfl

/-- A choice refutes nothing: an assumption that fails contradicts the formula and the others. -/
theorem refuted_of_choose (hr : choose A r s = .ok (out, s')) : s'.refuted = s.refuted := by
  unfold choose at hr
  split at hr
  · obtain ⟨⟨picked, order⟩, -, hr⟩ := bind_eq_ok_iff.1 hr
    cases picked with
    | none =>
      obtain ⟨-, rfl⟩ := Prod.mk.inj (Except.ok.inj hr)
      rfl
    | some l => exact (refuted_of_decideOn hr :)
  · obtain ⟨sat, -, hr⟩ := bind_eq_ok_iff.1 hr
    split at hr
    · obtain ⟨-, rfl⟩ := Prod.mk.inj (Except.ok.inj hr)
      rfl
    · obtain ⟨fals, -, hr⟩ := bind_eq_ok_iff.1 hr
      split at hr
      · obtain ⟨-, rfl⟩ := Prod.mk.inj (Except.ok.inj hr)
        rfl
      · exact refuted_of_decideOn hr

/-- Where no constraint is violated the formula is not refuted. -/
theorem Sane.refuted_of_onFixpoint (h : s.Sane F) (hr : Solver.onFixpoint b A r s = .ok (out, s')) :
    s'.refuted = false := by
  rw [onFixpoint_eq] at hr
  obtain ⟨s₁, hs₁, hr⟩ := bind_eq_ok_iff.1 hr
  obtain ⟨h₁, -⟩ := h.settle hs₁
  split at hr
  · obtain ⟨s₂, hs₂, hr⟩ := bind_eq_ok_iff.1 hr
    obtain ⟨h₂, -⟩ := h₁.keeps.backtrack h₁.ready (Nat.succ_pos _) hs₂
    dsimp only at hr
    split at hr
    · obtain ⟨-, rfl⟩ := Prod.mk.inj (Except.ok.inj hr)
      exact h₂.undecided
    · obtain ⟨x, -, hr⟩ := bind_eq_ok_iff.1 hr
      obtain ⟨-, rfl⟩ := Prod.mk.inj (Except.ok.inj hr)
      exact h₂.undecided
  · obtain ⟨s₂, hs₂, hr⟩ := bind_eq_ok_iff.1 hr
    obtain ⟨h₂, -⟩ := h₁.thin hs₂
    exact (refuted_of_choose hr).trans h₂.keeps.undecided

/-- What is learnt above level 0 does not refute the formula. -/
theorem Keeps.refuted_of_learn {a : Analysis} {s₁ : Solver} (h : s.Keeps F)
    (hk : s.kernel.Clash ref) (hl : s.store.Lists s.learnts) (hs₁ : s.analyze ref = .ok (a, id, s₁))
    (hr : s₁.learn a id = .ok s') : s'.refuted = false := by
  obtain ⟨h₁, hkernel, hlearnts, hlearns, ho, hfollows⟩ := h.analyze hk hs₁
  have htrail : s₁.trail = s.trail := congrArg Kernel.trail hkernel
  have hstore : s₁.store = s.store := congrArg Kernel.store hkernel
  have hl₁ : s₁.store.Lists s₁.learnts := by
    rw [hstore, hlearnts]
    exact hl
  obtain ⟨h₂, -⟩ := h₁.learn (hkernel ▸ hk) hl₁ (htrail ▸ hlearns) ho hfollows hr
  exact h₂.undecided

/-- A conflict at level 0 is the only way for a step to refute the formula. -/
theorem Supplied.documented_of_step (h : s.Supplied n) (hs : s.Sane F)
    (hr : Solver.step b A r s = .ok (out, s')) (hrefuted : s'.refuted = true) : s'.Documented := by
  obtain ⟨⟨conflict, s₁⟩, hs₁, hr⟩ := bind_eq_ok_iff.1 hr
  obtain ⟨_, _, hsame, h₁, hcertificate⟩ := h.propagate hs.ready
  obtain ⟨rfl, rfl⟩ := Prod.mk.inj (Except.ok.inj (hs₁.symm.trans hsame))
  obtain ⟨hkeeps₁, hends, hlists₁, hext⟩ := hs.propagate hs₁
  have hno : s'.refuted = false → s'.Documented := fun hopen =>
    absurd (hopen.symm.trans hrefuted) (by simp)
  cases conflict with
  | none => exact hno (Sane.refuted_of_onFixpoint ⟨hends.1, hkeeps₁, hlists₁⟩ hr)
  | some ref =>
    change Solver.onConflict b r ref s₁ = _ at hr
    unfold Solver.onConflict at hr
    dsimp only at hr
    set s₂ : Solver := { s₁ with stats := { s₁.stats with conflicts := s₁.stats.conflicts + 1 } }
    have hkeeps₂ : s₂.Keeps F := hkeeps₁.of_eq rfl rfl rfl rfl rfl rfl rfl hkeeps₁.calm
    split at hr
    · next hlev =>
      obtain ⟨s₃, hs₃, hr⟩ := bind_eq_ok_iff.1 hr
      obtain ⟨-, rfl⟩ := Prod.mk.inj (Except.ok.inj hr)
      have h₂ : s₂.Ample n := h₁.of_eq rfl rfl rfl rfl rfl rfl
      exact h₂.documented_of_rootConflict hkeeps₂ hends hlev
        (fun c hc => h.complete hs.keeps.undecided c (hcertificate ▸ hc)) hext hs₃
    · obtain ⟨⟨a, id, s₃⟩, hs₃, hr⟩ := bind_eq_ok_iff.1 hr
      obtain ⟨s₄, hs₄, hr⟩ := bind_eq_ok_iff.1 hr
      have hopen := hkeeps₂.refuted_of_learn hends hlists₁ hs₃ hs₄
      split at hr <;>
      · obtain ⟨-, rfl⟩ := Prod.mk.inj (Except.ok.inj hr)
        exact hno hopen

end Cdcl.Solver
