import Cdcl.Proofs.Solver.Addition
import Cdcl.Proofs.Solver.Fixpoint
import Cdcl.Proofs.Trail.Assumptions

/-!
# Verdicts are right

Each step of a search keeps a solver sane (`step_eq_ok`), so a run does (`run_eq_ok`), and the verdict
of a search is right (`Ends`): a full trail is a model (`Kernel.Ready.isModel`), and an assumption that
is false when its turn comes contradicts the formula and the other assumptions
(`Kernel.Represents.assumption_fails`).
-/

namespace Cdcl
set_option autoImplicit false

/-- A list of signed numbers is a model of a formula and makes the assumptions true. -/
structure IsModel (m : List Int) (vars : Nat) (F : Formula) (A : List Literal) : Prop where
  length : m.length = vars
  signed : ∀ i < vars, m[i]? = some ((i : Int) + 1) ∨ m[i]? = some (-((i : Int) + 1))
  holds : F.Holds (Assignment.ofModel m)
  assumed : ∀ l ∈ A, l.toInt ∈ m

namespace Kernel

variable {k : Kernel} {F : Formula} {A : List Literal} {l : Literal}

/-- Once every variable is assigned, the trail is a model. -/
theorem Ready.isModel (h : k.Ready) (hhead : k.trail.head = k.trail.literals.size)
    (hrep : k.Represents F) (hall : ∀ v, Order.InRange k.trail.vars v → k.trail.mark? v ≠ none)
    (hA : k.trail.Assumes A) (hnames : ∀ l ∈ A, k.trail.Names l)
    (hlevel : A[k.trail.level]? = none) : IsModel k.trail.model k.trail.vars F A where
  length := Trail.length_model _
  signed := by
    intro i hi
    rw [Trail.getElem?_model hi]
    exact (k.trail.signed_cases (i + 1)).imp (fun h => by rw [h]; rfl) fun h => by rw [h]; rfl
  holds := by
    have hrespects : (Assignment.ofModel k.trail.model).Respects k.trail := by
      intro l hl
      obtain ⟨m, hm, hneg⟩ := h.sound.trail.holds_iff.1 hl
      rw [Trail.makes_ofModel (l := l) (h.sound.trail.named hm)]
      exact Trail.makes_assignment h.sound.trail hl
    refine (hrep.meets _).2 ⟨fun ref e he _ => ?_, fun l hl _ => hrespects l hl⟩
    refine h.holds hhead he (fun l hl => hall l.var ?_) hrespects
    exact h.sound.named he l (Constraint.mem_literals.2 (Or.inl hl))
  assumed := by
    intro l hl
    obtain ⟨i, hi⟩ := List.mem_iff_getElem?.1 hl
    have hlt : i < k.trail.level :=
      Nat.lt_of_lt_of_le (List.getElem?_eq_some_iff.1 hi).1 (List.getElem?_eq_none_iff.1 hlevel)
    exact (Trail.mem_model (hnames l hl)).2 (Trail.makes_assignment h.sound.trail (hA.made i l hi hlt).1)

/-- An assumption that is false when its turn comes contradicts the formula and the others. -/
theorem Represents.assumption_fails {a : Assignment} (hrep : k.Represents F) (hk : k.Sound)
    (hA : k.trail.Assumes A) (hl : A[k.trail.level]? = some l) (hfalse : k.trail.holds (-l) = true)
    (ha : F.Holds a) : ∃ l ∈ A, a.makes l = false := by
  by_contra hall
  have hmakes : ∀ l ∈ A, a.makes l = true := by
    intro x hx
    by_contra hno
    exact hall ⟨x, hx, by simpa using hno⟩
  have hlt : k.trail.level < A.length := (List.getElem?_eq_some_iff.1 hl).1
  obtain ⟨m, hm, hneg⟩ := hk.trail.holds_iff.1 hfalse
  have htrue := hk.makes (n := k.trail.level) (hrep.satisfied a ha)
    (fun v i hi hle hreason => by
      by_cases hzero : i.level = 0
      · exact ((hrep.meets a).1 ha).root ⟨v, i.negative⟩ (Trail.holds_mk hi)
          ((Trail.levelOf_eq hi).trans hzero)
      · have hdec := hA.decided v i hi hreason (Nat.pos_of_ne_zero hzero) (by omega)
        exact hmakes _ (List.mem_of_getElem? hdec)) _ m hm (hk.trail.level_le hm)
  have heq : (⟨(-l).var, m.negative⟩ : Literal) = -l :=
    hk.trail.eq_of_holds (Trail.holds_mk hm) hfalse rfl
  rw [heq, Assignment.makes_neg, hmakes l (List.mem_of_getElem? hl)] at htrue
  exact absurd htrue (by simp)

end Kernel

namespace Solver

variable {s s' s₁ : Solver} {F : Formula} {A : List Literal} {l : Literal} {o : Order}
  {b : Budget} {r : Round} {out : Outcome} {v : Verdict} {fuel : Nat} {conflict : ClauseRef}
  {raws : List Int}

/-- What a search under assumptions leaves behind. -/
def Ends (s : Solver) (F : Formula) (A : List Literal) : Verdict → Prop
  | .satisfiable => s.Sane F ∧ ∃ m, s.model = some m ∧ IsModel m s.numVars F A
  | .unsatisfiable =>
    (s.Sane F ∧ A ≠ [] ∧ ∀ a : Assignment, F.Holds a → ∃ l ∈ A, a.makes l = false) ∨
      (s.Refuted F ∧ Notice.rootConflict ∈ s.journal)
  | .timeout | .unfinished => s.Sane F

/-- What a step leaves behind: it goes on from a sane solver, or it ends the search. -/
def Leads (s : Solver) (F : Formula) (A : List Literal) : Outcome → Prop
  | .goOn _ => s.Sane F ∧ s.trail.Assumes A
  | .finish v => s.Ends F A v

/-! ## Conflicts -/

/-- Above level 0 a conflict teaches a clause; the search returns to where this asserts a literal. -/
theorem onConflict_learns (h : s.Keeps F) (hk : s.kernel.Clash conflict)
    (hl : s.store.Lists s.learnts) (hlev : s.trail.level ≠ 0)
    (hr : onConflict b r conflict s = .ok (out, s')) :
    s'.Sane F ∧ (∃ a : Analysis, a.Learns s.trail ∧ Asserts s.trail s'.trail a) ∧
      (out = .finish .timeout ∨ out = .goOn { r with conflicts := r.conflicts + 1 }) := by
  unfold onConflict at hr
  obtain ⟨⟨a, id, s₁⟩, hs₁, hr⟩ := bind_eq_ok_iff.1 ((if_neg hlev).symm.trans hr)
  obtain ⟨s₂, hs₂, hr⟩ := bind_eq_ok_iff.1 hr
  have hbase : Keeps { s with stats := { s.stats with conflicts := s.stats.conflicts + 1 } } F :=
    h.of_eq rfl rfl rfl rfl rfl rfl rfl h.calm
  obtain ⟨h₁, hkernel, hlearnts, hlearns, ho, hfollows⟩ := hbase.analyze hk hs₁
  have htrail : s₁.trail = s.trail := congrArg Kernel.trail hkernel
  have hstore : s₁.store = s.store := congrArg Kernel.store hkernel
  have hl₁ : s₁.store.Lists s₁.learnts := by
    rw [hstore, hlearnts]
    exact hl
  obtain ⟨h₂, hk₂, hl₂, hasserts⟩ :=
    h₁.learn (hkernel ▸ hk) hl₁ (htrail ▸ hlearns) ho hfollows hs₂
  rw [htrail] at hasserts
  have hsane : Sane { s₂ with
      order := s₂.order.decayed
      clauseIncrement := s₂.clauseIncrement / s₂.config.clauseDecay } F := by
    have hdecayed : Keeps { s₂ with order := s₂.order.decayed } F :=
      h₂.follow (Kernel.Follows.refl _) h₂.covers.decayed
    exact ⟨hk₂, hdecayed.of_eq rfl rfl rfl rfl rfl rfl rfl h₂.calm, hl₂⟩
  dsimp only at hr
  split at hr
  · obtain ⟨rfl, rfl⟩ := Prod.mk.inj (Except.ok.inj hr)
    exact ⟨hsane, ⟨a, hlearns, hasserts⟩, Or.inl rfl⟩
  · obtain ⟨rfl, rfl⟩ := Prod.mk.inj (Except.ok.inj hr)
    exact ⟨hsane, ⟨a, hlearns, hasserts⟩, Or.inr rfl⟩

theorem onConflict_eq_ok (h : s.Keeps F) (hk : s.kernel.Clash conflict)
    (hl : s.store.Lists s.learnts) (hA : s.trail.Assumes A)
    (hr : onConflict b r conflict s = .ok (out, s')) :
    s'.numVars = s.numVars ∧ s'.Leads F A out := by
  by_cases hlev : s.trail.level = 0
  · unfold onConflict at hr
    obtain ⟨s₁, hs₁, hr⟩ := bind_eq_ok_iff.1 ((if_pos hlev).symm.trans hr)
    obtain ⟨rfl, rfl⟩ := Prod.mk.inj (Except.ok.inj hr)
    have hbase : Keeps { s with stats := { s.stats with conflicts := s.stats.conflicts + 1 } } F :=
      h.of_eq rfl rfl rfl rfl rfl rfl rfl h.calm
    obtain ⟨hrefuted, hjournal, hkernel⟩ := hbase.rootConflict hk hlev hs₁
    refine ⟨?_, Or.inr ⟨hrefuted, hjournal⟩⟩
    unfold numVars Solver.trail
    rw [hkernel]
  · obtain ⟨hsane, ⟨a, -, x, reason, htrail, hnone, hcell, hreason⟩, hout⟩ :=
      onConflict_learns h hk hl hlev hr
    have hvars : s'.numVars = s.numVars := by
      unfold numVars
      rw [htrail]
      exact Trail.vars_undoTo
    have hA' : s'.trail.Assumes A := by
      rw [htrail]
      refine (hA.undoTo hk.sound.trail).push hcell hnone fun hno => ?_
      rw [Trail.level_undoTo, hreason hno, Nat.min_zero]
    rcases hout with rfl | rfl
    · exact ⟨hvars, hsane⟩
    · exact ⟨hvars, hsane, hA'⟩

/-! ## Decisions -/

theorem restart_eq_ok (h : s.Sane F) (hA : s.trail.Assumes A)
    (hr : restart b s = .ok (out, s')) : s'.numVars = s.numVars ∧ s'.Leads F A out := by
  obtain ⟨s₁, hs₁, hr⟩ := bind_eq_ok_iff.1 hr
  obtain ⟨h₁, hk₁, htrail, hstore, hlearnts, -⟩ :=
    h.keeps.backtrack h.ready (Nat.succ_pos _) hs₁
  have hvars : s₁.numVars = s.numVars := by
    unfold numVars
    rw [htrail]
    exact Trail.vars_undoTo
  have hA₁ : s₁.trail.Assumes A := by
    rw [htrail]
    exact hA.undoTo h.ready.sound.trail
  have hl₁ : s₁.store.Lists s₁.learnts := by
    rw [hstore, hlearnts]
    exact h.lists
  dsimp only at hr
  have hcalm : ∀ n : Notice, n ≠ .rootConflict → Notice.rootConflict ∉ s₁.journal.push n :=
    fun n hn => calm_push h₁.calm hn
  split at hr
  · obtain ⟨rfl, rfl⟩ := Prod.mk.inj (Except.ok.inj hr)
    exact ⟨hvars, hk₁, h₁.of_eq rfl rfl rfl rfl rfl rfl rfl (hcalm _ (by simp)), hl₁⟩
  · obtain ⟨⟨interval, restarts⟩, -, hr⟩ := bind_eq_ok_iff.1 hr
    obtain ⟨rfl, rfl⟩ := Prod.mk.inj (Except.ok.inj hr)
    exact ⟨hvars, ⟨hk₁, h₁.of_eq rfl rfl rfl rfl rfl rfl rfl (hcalm _ (by simp)), hl₁⟩, hA₁⟩

/-- A level is opened with a literal; the order may have given it up before. -/
theorem decideOn_eq_ok {stats : Statistics} (h : s.Sane F)
    (hhead : s.trail.head = s.trail.literals.size)
    (ho : o.Offers s.trail.vars fun v => s.trail.mark? v = none ∧ v ≠ l.var)
    (hname : s.trail.Names l) (hA : s.trail.Assumes A)
    (hl : ∀ k, A[s.trail.level]? = some k → k = l)
    (hr : decideOn r l { s with order := o, stats } = .ok (out, s')) :
    s'.numVars = s.numVars ∧ s'.Leads F A out := by
  obtain ⟨t, ht, hr⟩ := bind_eq_ok_iff.1 hr
  obtain ⟨rfl, rfl⟩ := Prod.mk.inj (Except.ok.inj hr)
  obtain ⟨hnone, -, rfl⟩ := Trail.decide_eq_ok ht
  have hvalid : s.trail.Valid := h.ready.sound.trail
  have hcell := hvalid.covers hname
  have hready : Kernel.Ready { s.kernel with trail := s.trail.openLevel.push l none } :=
    Kernel.Firm.push (h.ready.openLevel hhead) hname hnone fun ref href => absurd href (by simp)
  have hfollows : s.kernel.Follows { s.kernel with trail := s.trail.openLevel.push l none } :=
    Kernel.Follows.openLevel.trans (Kernel.Follows.push hcell.openLevel hnone (by
      change s.trail.openLevel.level ≠ 0
      rw [Trail.level_openLevel]
      exact Nat.succ_ne_zero _))
  have hcovers : o.Covers (s.trail.openLevel.push l none) := by
    refine Order.Offers.mono ho fun v hv => ?_
    constructor
    · cases hm : s.trail.mark? v with
      | none => rfl
      | some m =>
        have := Trail.mark?_push_of_some (t := s.trail.openLevel) (r := none) hnone hm
        exact absurd (this.symm.trans hv) (by simp)
    · rintro rfl
      have := Trail.mark?_push_self (t := s.trail.openLevel) (r := none) hcell.openLevel hnone
      exact absurd (this.symm.trans hv) (by simp)
  have hkeeps := h.keeps.follow hfollows hcovers
  have hcalm := calm_push (n := .deciding l (s.trail.level + 1)) h.keeps.calm (by simp)
  have hfinal : Keeps { s with
      kernel := { s.kernel with trail := s.trail.openLevel.push l none }
      order := o
      stats
      journal := s.journal.push (.deciding l (s.trail.level + 1)) } F :=
    hkeeps.of_eq rfl rfl rfl rfl rfl rfl rfl hcalm
  exact ⟨rfl, ⟨hready, hfinal.noteAll fun _ => ne_rootConflict_of_mem_assignments, h.lists⟩,
    hA.decide hvalid hname hnone hl⟩

theorem branch_eq_ok (h : s.Sane F) (hhead : s.trail.head = s.trail.literals.size)
    (hvars : s.numVars < Var.signedLimit) (hA : s.trail.Assumes A)
    (hnames : ∀ l ∈ A, s.trail.Names l) (hlevel : A[s.trail.level]? = none)
    (hr : branch r s = .ok (out, s')) : s'.numVars = s.numVars ∧ s'.Leads F A out := by
  obtain ⟨⟨picked, order⟩, hpicked, hr⟩ := bind_eq_ok_iff.1 hr
  have hpicks := Order.select_eq_ok h.keeps.covers hvars hpicked
  cases picked with
  | none =>
    obtain ⟨rfl, rfl⟩ := Prod.mk.inj (Except.ok.inj hr)
    obtain ⟨hall, hcovers⟩ := hpicks
    have hkeeps := h.keeps.follow (Kernel.Follows.refl _) hcovers
    refine ⟨rfl, ⟨h.ready, hkeeps.of_eq rfl rfl rfl rfl rfl rfl rfl hkeeps.calm, h.lists⟩,
      s.trail.model, rfl, ?_⟩
    exact h.ready.isModel hhead h.keeps.represents hall hA hnames hlevel
  | some l =>
    obtain ⟨-, hname, ho⟩ := hpicks
    exact decideOn_eq_ok h hhead ho hname hA
      (fun k hk => absurd (hlevel.symm.trans hk) (by simp)) hr

theorem choose_eq_ok (h : s.Sane F) (hhead : s.trail.head = s.trail.literals.size)
    (hvars : s.numVars < Var.signedLimit) (hA : s.trail.Assumes A)
    (hnames : ∀ l ∈ A, s.trail.Names l) (hr : choose A r s = .ok (out, s')) :
    s'.numVars = s.numVars ∧ s'.Leads F A out := by
  unfold choose at hr
  split at hr
  · next hlevel => exact branch_eq_ok h hhead hvars hA hnames hlevel hr
  · next l hl =>
    obtain ⟨sat, hsat, hr⟩ := bind_eq_ok_iff.1 hr
    obtain ⟨-, rfl⟩ := Trail.isSatisfied_eq_ok hsat
    split at hr
    · next hholds =>
      obtain ⟨rfl, rfl⟩ := Prod.mk.inj (Except.ok.inj hr)
      have hkeeps : Keeps { s with kernel := { s.kernel with trail := s.trail.openLevel } } F :=
        h.keeps.follow Kernel.Follows.openLevel h.keeps.covers
      refine ⟨rfl, ⟨h.ready.openLevel hhead, hkeeps, h.lists⟩,
        hA.openLevel h.ready.sound.trail fun k hk => ?_⟩
      rw [← Option.some.inj (hl.symm.trans hk)]
      exact hholds
    · obtain ⟨fals, hfals, hr⟩ := bind_eq_ok_iff.1 hr
      obtain rfl := Trail.isFalsified_eq_ok hfals
      split at hr
      · next hfalse =>
        obtain ⟨rfl, rfl⟩ := Prod.mk.inj (Except.ok.inj hr)
        refine ⟨rfl, Or.inl ⟨⟨h.ready, h.keeps.note (by simp), h.lists⟩, ?_, fun a ha => ?_⟩⟩
        · exact List.ne_nil_of_mem (List.mem_of_getElem? hl)
        · exact h.keeps.represents.assumption_fails h.ready.sound hA hl hfalse ha
      · have hsame : decideOn r l { s with order := s.order, stats := s.stats } = .ok (out, s') := hr
        refine decideOn_eq_ok h hhead
          (Order.Offers.mono h.keeps.covers fun v hv => hv.1)
          (hnames l (List.mem_of_getElem? hl)) hA (fun k hk => ?_) hsame
        exact (Option.some.inj (hl.symm.trans hk)).symm

theorem onFixpoint_eq_ok (h : s.Sane F) (hhead : s.trail.head = s.trail.literals.size)
    (hvars : s.numVars < Var.signedLimit) (hA : s.trail.Assumes A)
    (hnames : ∀ l ∈ A, s.trail.Names l) (hr : onFixpoint b A r s = .ok (out, s')) :
    s'.numVars = s.numVars ∧ s'.Leads F A out := by
  rw [onFixpoint_eq] at hr
  obtain ⟨s₁, hs₁, hr⟩ := bind_eq_ok_iff.1 hr
  obtain ⟨h₁, hforgets⟩ := h.settle hs₁
  have hvars₁ : s₁.numVars = s.numVars := hforgets.vars
  have hA₁ := hA.of_forgets hforgets
  split at hr
  · obtain ⟨hvars', hleads⟩ := restart_eq_ok h₁ hA₁ hr
    exact ⟨hvars'.trans hvars₁, hleads⟩
  · obtain ⟨s₂, hs₂, hr⟩ := bind_eq_ok_iff.1 hr
    obtain ⟨h₂, htrail⟩ := h₁.thin hs₂
    have hvars₂ : s₂.numVars = s.numVars := (congrArg Trail.vars htrail).trans hvars₁
    have hhead₂ : s₂.trail.head = s₂.trail.literals.size := by
      rw [htrail, hforgets.head, hforgets.literals, hhead]
    have hnames₂ : ∀ l ∈ A, s₂.trail.Names l := fun l hl =>
      ⟨(hnames l hl).1, Nat.le_trans (hnames l hl).2 (Nat.le_of_eq hvars₂.symm)⟩
    obtain ⟨hvars', hleads⟩ := choose_eq_ok h₂ hhead₂ (hvars₂ ▸ hvars) (htrail ▸ hA₁) hnames₂ hr
    exact ⟨hvars'.trans hvars₂, hleads⟩

/-! ## Whole searches -/

theorem step_eq_ok (h : s.Sane F) (hvars : s.numVars < Var.signedLimit) (hA : s.trail.Assumes A)
    (hnames : ∀ l ∈ A, s.trail.Names l) (hr : step b A r s = .ok (out, s')) :
    s'.numVars = s.numVars ∧ s'.Leads F A out := by
  obtain ⟨⟨conflict, s₁⟩, hs₁, hr⟩ := bind_eq_ok_iff.1 hr
  obtain ⟨h₁, hends, hl₁, hext⟩ := h.propagate hs₁
  have hA₁ := hA.of_extends hext
  have hvars₁ : s₁.numVars = s.numVars := hext.vars
  rw [← hvars₁] at hvars ⊢
  cases conflict with
  | some ref => exact onConflict_eq_ok h₁ hends hl₁ hA₁ hr
  | none =>
    exact onFixpoint_eq_ok ⟨hends.1, h₁, hl₁⟩ hends.2 hvars hA₁
      (fun l hl => hext.names.2 (hnames l hl)) hr

theorem run_eq_ok (h : s.Sane F) (hvars : s.numVars < Var.signedLimit) (hA : s.trail.Assumes A)
    (hnames : ∀ l ∈ A, s.trail.Names l) (hr : run b A fuel r s = .ok (v, s')) :
    s'.numVars = s.numVars ∧ s'.Ends F A v := by
  induction fuel generalizing s r with
  | zero =>
    obtain ⟨rfl, rfl⟩ := Prod.mk.inj (Except.ok.inj hr)
    exact ⟨rfl, h⟩
  | succ fuel ih =>
    obtain ⟨⟨out, s₁⟩, hs₁, hr⟩ := bind_eq_ok_iff.1 hr
    obtain ⟨hvars₁, hleads⟩ := step_eq_ok h hvars hA hnames hs₁
    cases out with
    | finish v₁ =>
      obtain ⟨rfl, rfl⟩ := Prod.mk.inj (Except.ok.inj hr)
      exact ⟨hvars₁, hleads⟩
    | goOn r₁ =>
      obtain ⟨h₁, hA₁⟩ := hleads
      have hnames₁ : ∀ l ∈ A, s₁.trail.Names l := by
        intro l hl
        have htrail : s₁.trail.vars = s.trail.vars := hvars₁
        unfold Trail.Names
        rw [htrail]
        exact hnames l hl
      rw [← hvars₁] at hvars ⊢
      exact ih h₁ hvars hA₁ hnames₁ hr

theorem Ends.backtrack (h : s.Ends F A v) (hb : s.backtrack 0 = .ok s') :
    s'.numVars = s.numVars ∧ s'.trail.level = 0 ∧ s'.Ends F A v := by
  obtain ⟨o, -, hs'⟩ := backtrack_eq_ok hb
  have hvars : s'.numVars = s.numVars := by
    rw [hs']
    exact Trail.vars_undoTo
  have hlevel : s'.trail.level = 0 := by
    rw [hs']
    exact Trail.level_undoTo.trans (Nat.min_zero _)
  have hsane : s.Sane F → s'.Sane F := by
    intro hs
    obtain ⟨h', hready, -, hstore, hlearnts, -⟩ := hs.keeps.backtrack hs.ready (Nat.succ_pos _) hb
    refine ⟨hready, h', ?_⟩
    rw [hstore, hlearnts]
    exact hs.lists
  refine ⟨hvars, hlevel, ?_⟩
  cases v with
  | satisfiable =>
    obtain ⟨hs, m, hm, hmodel⟩ := h
    exact ⟨hsane hs, m, by rw [hs']; exact hm, hvars ▸ hmodel⟩
  | unsatisfiable =>
    rcases h with ⟨hs, hfails⟩ | ⟨hrefuted, hjournal⟩
    · exact Or.inl ⟨hsane hs, hfails⟩
    · exact Or.inr ⟨hrefuted.of_eq (by rw [hs']) (by rw [hs']), by rw [hs']; exact hjournal⟩
  | timeout => exact hsane h
  | unfinished => exact hsane h

theorem Ends.note {n : Notice} (h : s.Ends F A v) (hn : n ≠ .rootConflict) :
    (s.note n).Ends F A v := by
  have hsane : s.Sane F → (s.note n).Sane F := fun hs => ⟨hs.ready, hs.keeps.note hn, hs.lists⟩
  cases v with
  | satisfiable => exact ⟨hsane h.1, h.2⟩
  | unsatisfiable =>
    rcases h with ⟨hs, hfails⟩ | ⟨hrefuted, hjournal⟩
    · exact Or.inl ⟨hsane hs, hfails⟩
    · exact Or.inr ⟨hrefuted.of_eq rfl rfl, Array.mem_push_of_mem _ hjournal⟩
  | timeout => exact hsane h
  | unfinished => exact hsane h

/-- The solver at the start of a search under so many assumptions. -/
def atStart (s : Solver) (assumed : Nat) (restarts : Restart) : Solver :=
  note { s with
    model := none
    maxLearnts := largerLimit (countToFloat s.formulaSize * s.config.learntRatio)
      (countToFloat s.config.minLearnts)
    restarts } (.solving s.numVars s.formulaSize assumed)

/-- How a search goes unless the formula is refuted. -/
theorem solve_eq (h : s.refuted = false) : s.solve fuel raws = (do
    let ls ← s.literals raws
    let b ← s.budget
    let (interval, restarts) ← s.restarts.next
    let (v, s) ← run b ls fuel { interval } (s.atStart ls.length restarts)
    let s ← s.backtrack 0
    .ok (v, (s.note (verdictNotice v)).note (.counted s.statistics))) := by
  have hliterals : literals { s with model := none } raws = s.literals raws := literals_congr rfl
  unfold Solver.solve
  rw [← hliterals]
  exact if_neg (by simp [h])

/-- An open formula has a result if the parts of a search have one. -/
theorem solve_of_run {ls : List Literal} {b : Budget} {interval : Option Nat} {restarts : Restart}
    {s₁ s₂ : Solver} (h : s.refuted = false) (hls : s.literals raws = .ok ls) (hb : s.budget = .ok b)
    (hnext : s.restarts.next = .ok (interval, restarts))
    (hs₁ : run b ls fuel { interval } (s.atStart ls.length restarts) = .ok (v, s₁))
    (hs₂ : s₁.backtrack 0 = .ok s₂) :
    s.solve fuel raws = .ok (v, (s₂.note (verdictNotice v)).note (.counted s₂.statistics)) := by
  rw [solve_eq h, hls, hb, hnext]
  exact bind_eq_ok_iff.2 ⟨_, rfl, bind_eq_ok_iff.2 ⟨_, rfl, bind_eq_ok_iff.2 ⟨_, rfl,
    bind_eq_ok_iff.2 ⟨_, hs₁, bind_eq_ok_iff.2 ⟨s₂, hs₂, rfl⟩⟩⟩⟩⟩

theorem Sane.atStart (h : s.Sane F) (assumed : Nat) (restarts : Restart) :
    (s.atStart assumed restarts).Sane F :=
  ⟨h.ready, h.keeps.of_eq rfl rfl rfl rfl rfl rfl rfl (calm_push h.keeps.calm (by simp)), h.lists⟩

theorem Idle.solve (h : s.Idle F) (hvars : s.numVars < Var.signedLimit)
    (hr : s.solve fuel raws = .ok (v, s')) :
    s'.numVars = s.numVars ∧ s'.trail.level = 0 ∧ s'.Ends F (raws.map Literal.ofSigned) v := by
  rw [solve_eq h.keeps.undecided] at hr
  obtain ⟨ls, hls, hr⟩ := bind_eq_ok_iff.1 hr
  obtain ⟨b, -, hr⟩ := bind_eq_ok_iff.1 hr
  obtain ⟨⟨interval, restarts⟩, -, hr⟩ := bind_eq_ok_iff.1 hr
  obtain ⟨⟨v₁, s₁⟩, hs₁, hr⟩ := bind_eq_ok_iff.1 hr
  obtain ⟨s₂, hs₂, hr⟩ := bind_eq_ok_iff.1 hr
  obtain ⟨rfl, rfl⟩ := Prod.mk.inj (Except.ok.inj hr)
  obtain ⟨rfl, hnames⟩ := literals_eq_ok hvars hls
  have hA : s.trail.Assumes (raws.map Literal.ofSigned) :=
    Trail.assumes_of_level_zero h.ready.sound.trail h.level
  obtain ⟨hnum₁, hends₁⟩ := run_eq_ok (h.toSane.atStart _ restarts) hvars hA hnames hs₁
  obtain ⟨hnum₂, hlevel, hends₂⟩ := hends₁.backtrack hs₂
  have hnotice : verdictNotice v₁ ≠ .rootConflict := by cases v₁ <;> simp [verdictNotice]
  exact ⟨hnum₂.trans hnum₁, hlevel, (hends₂.note hnotice).note (by simp)⟩

end Solver
end Cdcl
