import Cdcl.Proofs.Solver.Quiet
import Cdcl.Proofs.Solver.Session

/-!
# What a session guarantees

In every session the model of a satisfiable answer is one (`Session.model_of_satisfiable`),
unsatisfiable answers and contradictions are right (`Session.refutations_right`), and the certificate
shows every refutation of the formula and nothing else (`Session.certificate_decides`).
-/

namespace Cdcl
set_option autoImplicit false

variable {s s' : Solver} {F : Formula} {es : List Exchange} {fuel : Nat} {raws : List Int}

/-! ## Models -/

/-- After a satisfiable answer the model has one signed number for each variable, makes everything
true that was ever added, and holds the assumptions. -/
theorem Session.model_of_satisfiable (h : Session s es)
    (hr : s.solve fuel raws = .ok (.satisfiable, s')) :
    ∃ m, s'.model = some m ∧ m.length = s'.numVars ∧
      (∀ i < s'.numVars, m[i]? = some ((i : Int) + 1) ∨ m[i]? = some (-((i : Int) + 1))) ∧
      (formula es).Holds (Assignment.ofModel m) ∧ ∀ raw ∈ raws, raw ∈ m := by
  obtain ⟨⟨hidle, -⟩ | ⟨hrefuted, -⟩, hvars⟩ := h.stands
  · obtain ⟨-, -, hends⟩ := hidle.solve (Nat.lt_trans hvars (by decide)) hr
    obtain ⟨-, m, hm, hmodel⟩ := hends
    refine ⟨m, hm, hmodel.length, hmodel.signed, hmodel.holds, fun raw hraw => ?_⟩
    have hin := hmodel.assumed _ (List.mem_map_of_mem hraw)
    rwa [Literal.toInt_ofSigned] at hin
  · obtain ⟨-, -, hno, -⟩ := hrefuted.solve hr
    exact absurd hno (by simp)

/-- Decides at random and never starts over. -/
def Config.plain : Config := { order := .uniform 0, restarts := .never }

/-- The history in which the first of three variables implies the second. -/
def implicationHistory : List Exchange :=
  [(.newVars 3, .done), (.addClause [-1, 2], .added (.ok (.stored ⟨0⟩)))]

/-- The clause that makes the first of three variables imply the second, on a trail. -/
def Kernel.implication (marks : List (Option Mark)) (literals : List Literal) (limits : List Nat)
    (head : Nat) : Kernel where
  trail := .ofMarks marks literals limits head
  watches := ⟨⟨#[#[], #[], #[], #[⟨0⟩], #[⟨0⟩], #[], #[], #[]]⟩⟩
  store := ⟨#[some ⟨.binary ⟨⟨1⟩, true⟩ ⟨⟨2⟩, false⟩, 0.0, false, none⟩], 1, rfl⟩
  propagations := head

/-- The first variable was assumed, and the second one was forced. -/
def Kernel.implied : Kernel := .implication
  [none, some ⟨false, 1, none, 0⟩, some ⟨false, 1, some ⟨0⟩, 1⟩, none]
  [⟨⟨1⟩, false⟩, ⟨⟨2⟩, false⟩] [0] 2

/-- The third variable was decided on afterwards. -/
def Kernel.completed : Kernel := .implication
  [none, some ⟨false, 1, none, 0⟩, some ⟨false, 1, some ⟨0⟩, 1⟩, some ⟨false, 2, none, 2⟩]
  [⟨⟨1⟩, false⟩, ⟨⟨2⟩, false⟩, ⟨⟨3⟩, false⟩] [0, 2] 3

theorem Session.exists_implication : ∃ s, Session s implicationHistory ∧ s.Quiet ∧
    s.refuted = false ∧ s.literals [1] = .ok [⟨⟨1⟩, false⟩] ∧ s.budget = .ok ⟨none, none⟩ ∧
    s.restarts = .never ∧ s.simplified = 0 ∧
    s.kernel = .implication [none, none, none, none] [] [] 0 ∧
    ∃ o o', s.order.select Kernel.implied.trail = .ok (some ⟨⟨3⟩, false⟩, .uniform o) ∧
      Order.select (.uniform o) Kernel.completed.trail = .ok (none, .uniform o') := by
  have h₀ : Session _ [] := Session.create (show Solver.create Config.plain = .ok _ from rfl)
  have h₁ := h₀.call (c := .newVars 3) trivial rfl (by decide)
  have h₂ := h₁.call (c := .addClause [-1, 2]) trivial
    (Solver.perform_addClause_of_empty rfl rfl rfl rfl rfl rfl rfl) (by decide)
  exact ⟨_, h₂, ⟨rfl, rfl⟩, rfl, rfl, rfl, rfl, rfl, rfl, _, _, rfl, rfl⟩

/-- The first variable is assumed, the second one is forced, and the third one is decided on. -/
theorem Session.model_of_satisfiable_implication : ∃ s s', Session s implicationHistory ∧
    s.solve 3 [1] = .ok (.satisfiable, s') ∧ s'.model = some [1, 2, 3] ∧
    ∃ m, s'.model = some m ∧ m.length = s'.numVars ∧
      (∀ i < s'.numVars, m[i]? = some ((i : Int) + 1) ∨ m[i]? = some (-((i : Int) + 1))) ∧
      (formula implicationHistory).Holds (Assignment.ofModel m) ∧ ∀ raw ∈ ([1] : List Int), raw ∈ m := by
  obtain ⟨s, hs, hquiet, hopen, hls, hb, hnever, hsimplified, hkernel, o, o', hpick, hfull⟩ :=
    Session.exists_implication
  have hstart : (s.atStart 1 .never).Quiet := ⟨hquiet.learnts, hquiet.certificate⟩
  have hk : s.kernel.propagate = .ok (none, .implication [none, none, none, none] [] [] 0) := by
    rw [hkernel]
    rfl
  obtain ⟨_, _, _, hs₁, h₁⟩ := hstart.step_of_assumption (A := [⟨⟨1⟩, false⟩]) (b := ⟨none, none⟩)
    (r := { interval := none }) rfl hk (fun _ => Or.inl hsimplified.symm) rfl rfl rfl rfl
  obtain ⟨_, _, _, hs₂, h₂⟩ := h₁.step_of_pick (A := [⟨⟨1⟩, false⟩]) (b := ⟨none, none⟩)
    (r := { interval := none }) rfl (show Kernel.propagate _ = .ok (none, .implied) from rfl)
    (fun hzero => absurd hzero (by decide)) rfl hpick rfl
  obtain ⟨_, _, _, hs₃⟩ := h₂.step_of_full (A := [⟨⟨1⟩, false⟩]) (b := ⟨none, none⟩)
    (r := { interval := none }) rfl (show Kernel.propagate _ = .ok (none, .completed) from rfl)
    (fun hzero => absurd hzero (by decide)) rfl hfull
  have hrun : Solver.run ⟨none, none⟩ [⟨⟨1⟩, false⟩] 3 { interval := none } (s.atStart 1 .never) =
      .ok (.satisfiable, _) :=
    bind_eq_ok_iff.2 ⟨_, hs₁, bind_eq_ok_iff.2 ⟨_, hs₂, bind_eq_ok_iff.2 ⟨_, hs₃, rfl⟩⟩⟩
  obtain ⟨journal, hs'⟩ := Solver.solve_of_uniform hopen hls hb hnever hrun rfl
  exact ⟨s, _, hs, hs', rfl, Session.model_of_satisfiable hs hs'⟩

/-! ## Refutations -/

theorem Session.unsatisfiable_sound (h : Session s es)
    (hr : s.solve fuel raws = .ok (.unsatisfiable, s')) :
    ∀ a : Assignment, (formula es).Holds a →
      ∃ raw ∈ raws, a.makes (Literal.ofSigned raw) = false := by
  intro a ha
  obtain ⟨⟨hidle, -⟩ | ⟨hrefuted, -⟩, hvars⟩ := h.stands
  · obtain ⟨-, -, hends⟩ := hidle.solve (Nat.lt_trans hvars (by decide)) hr
    rcases hends with ⟨-, -, hfails⟩ | ⟨hrefuted, -⟩
    · obtain ⟨l, hl, hal⟩ := hfails a ha
      obtain ⟨raw, hraw, rfl⟩ := List.mem_map.1 hl
      exact ⟨raw, hraw, hal⟩
    · exact absurd ⟨a, ha⟩ hrefuted.unsatisfiable
  · exact absurd ⟨a, ha⟩ hrefuted.unsatisfiable

theorem Session.addClause_sound {cause : Contradiction} (h : Session s es)
    (hr : s.addClause raws = .ok (.error (.contradiction cause), s')) :
    ¬ Formula.Satisfiable (formula es ++ [Demand.clause (raws.map Literal.ofSigned)]) := by
  obtain ⟨⟨hidle, -⟩ | ⟨hrefuted, -⟩, hvars⟩ := h.stands
  · have hrefuted : s'.Refuted _ := (hidle.addClause (.of_lt hvars) hr).2
    exact hrefuted.unsatisfiable
  · exact hrefuted.append.unsatisfiable

theorem Session.addAtLeast_sound {degree : Nat} {cause : Contradiction} (h : Session s es)
    (hraws : raws.Nodup) (hdegree : degree < Word.addressable)
    (hr : s.addAtLeast raws degree = .ok (.error (.contradiction cause), s')) :
    ¬ Formula.Satisfiable (formula es ++ [⟨degree, raws.map Literal.ofSigned⟩]) := by
  obtain ⟨⟨hidle, -⟩ | ⟨hrefuted, -⟩, hvars⟩ := h.stands
  · have hrefuted : s'.Refuted _ := (hidle.addAtLeast (.of_lt hvars) hraws hdegree hr).2
    exact hrefuted.unsatisfiable
  · exact hrefuted.append.unsatisfiable

/-- Unsatisfiable answers and contradictions are right, and a search that failed because of its
assumptions leaves later ones without assumptions free to succeed. -/
theorem Session.refutations_right (h : Session s es) :
    (∀ fuel raws s', s.solve fuel raws = .ok (.unsatisfiable, s') → ∀ a : Assignment,
      (formula es).Holds a → ∃ raw ∈ raws, a.makes (Literal.ofSigned raw) = false) ∧
    (∀ raws cause s', s.addClause raws = .ok (.error (.contradiction cause), s') →
      ¬ Formula.Satisfiable (formula es ++ [Demand.clause (raws.map Literal.ofSigned)])) ∧
    (∀ raws degree cause s', raws.Nodup → degree < Word.addressable →
      s.addAtLeast raws degree = .ok (.error (.contradiction cause), s') →
      ¬ Formula.Satisfiable (formula es ++ [⟨degree, raws.map Literal.ofSigned⟩])) ∧
    (∀ fuel raws s₁ fs s₂, s.solve fuel raws = .ok (.unsatisfiable, s₁) → Steps s₁ fs s₂ →
      (formula es ++ formula fs).Satisfiable →
      ∀ fuel' s', s₂.solve fuel' [] ≠ .ok (.unsatisfiable, s')) := by
  refine ⟨fun fuel raws s' hr => h.unsatisfiable_sound hr,
    fun raws cause s' hr => h.addClause_sound hr,
    fun raws degree cause s' hraws hdegree hr => h.addAtLeast_sound hraws hdegree hr, ?_⟩
  intro fuel raws s₁ fs s₂ hr hsteps ⟨a, ha⟩ fuel' s' hr'
  have hlater := (h.solve hr).append hsteps
  have hformula : formula ((es ++ [(.solve fuel raws, .answered .unsatisfiable)]) ++ fs) =
      formula es ++ formula fs := by
    rw [formula_append, formula_concat]
    exact congrArg (· ++ formula fs) (List.append_nil _)
  obtain ⟨raw, hraw, -⟩ := hlater.unsatisfiable_sound hr' a (hformula ▸ ha)
  exact absurd hraw (by simp)

/-- The history in which the first variable is made true. -/
def unitHistory : List Exchange :=
  [(.newVars 1, .done), (.addClause [1], .added (.ok (.unit ⟨⟨1⟩, false⟩)))]

/-- A session in which the only variable is true. -/
theorem Session.exists_unit : ∃ s, Session s unitHistory ∧ s.Quiet ∧
    s.refuted = false ∧ s.literals [-1] = .ok [⟨⟨1⟩, true⟩] ∧ s.budget = .ok ⟨none, none⟩ ∧
    s.restarts = .never ∧ s.store.entries = [] ∧
    s.kernel.trail = .ofMarks [none, some ⟨false, 0, none, 0⟩] [⟨⟨1⟩, false⟩] [] 1 ∧
    s.kernel.propagate = .ok (none, s.kernel) ∧
    (∃ o, s.order = .uniform o) ∧
    ∃ s', s.addClause [-1] = .ok (.error (.contradiction .emptyClause), s') := by
  have h₀ : Session _ [] := Session.create (show Solver.create Config.plain = .ok _ from rfl)
  have h₁ := h₀.call (c := .newVars 1) trivial rfl (by decide)
  have h₂ := h₁.call (c := .addClause [1]) trivial rfl (by decide)
  exact ⟨_, h₂, ⟨rfl, rfl⟩, rfl, rfl, rfl, rfl, rfl, rfl, rfl, ⟨_, rfl⟩, _, rfl⟩

/-- The search fails under the assumption that the variable is false, its negation is refused, and
without assumptions the search never fails. -/
theorem Session.refutations_right_unit : ∃ s s₁ s₂, Session s unitHistory ∧
    s.solve 1 [-1] = .ok (.unsatisfiable, s₁) ∧
    s.addClause [-1] = .ok (.error (.contradiction .emptyClause), s₂) ∧
    (∀ a : Assignment, (formula unitHistory).Holds a →
      ∃ raw ∈ ([-1] : List Int), a.makes (Literal.ofSigned raw) = false) ∧
    ¬ Formula.Satisfiable (formula unitHistory ++ [Demand.clause [Literal.ofSigned (-1)]]) ∧
    ∀ fuel s', s₁.solve fuel [] ≠ .ok (.unsatisfiable, s') := by
  obtain ⟨s, hs, hquiet, hopen, hls, hb, hnever, hentries, htrail, hk, ⟨o, ho⟩, s₂, hs₂⟩ :=
    Session.exists_unit
  have hstart : (s.atStart 1 .never).Quiet := ⟨hquiet.learnts, hquiet.certificate⟩
  obtain ⟨stats, journal, simplified, hstep⟩ := hstart.step_of_failing
    (A := [⟨⟨1⟩, true⟩]) (b := ⟨none, none⟩) (r := { interval := none }) rfl hk
    (fun _ => Or.inr hentries) (by rw [htrail]; rfl) (by rw [htrail]; rfl) (by rw [htrail]; rfl)
  have hrun : Solver.run ⟨none, none⟩ [⟨⟨1⟩, true⟩] 1 { interval := none } (s.atStart 1 .never) =
      .ok (.unsatisfiable, _) := bind_eq_ok_iff.2 ⟨_, hstep, rfl⟩
  obtain ⟨journal', hs₁⟩ := Solver.solve_of_uniform hopen hls hb hnever hrun ho
  have hright := Session.refutations_right hs
  refine ⟨s, _, s₂, hs, hs₁, hs₂, hright.1 1 [-1] _ hs₁, hright.2.1 [-1] _ s₂ hs₂, ?_⟩
  refine hright.2.2.2 1 [-1] _ [] _ hs₁ (Steps.nil _) ⟨fun _ => true, ?_⟩
  intro d hd
  obtain rfl : d = Demand.clause [⟨⟨1⟩, false⟩] := List.mem_singleton.1 hd
  exact Nat.le_refl 1

/-! ## Certificates -/

section
variable {p : Certificate} (hp : s.certificate = some p)
include hp

/-- The certificate of a refuted solver is accepted. -/
theorem Solver.Refuted.checkCertificate (h : s.Refuted F)
    (hids : p.log.nextId < Event.distanceLimit) : s.checkCertificate = .ok (.ok ()) := by
  obtain ⟨id, hempty, hrefutes⟩ := h.certified p hp
  obtain ⟨r, hr, hok⟩ := hrefutes.check hids
  unfold Solver.checkCertificate Solver.replay Certificate.replay
  rw [hp]
  dsimp only
  rw [hempty]
  dsimp only
  rw [hr]
  exact congrArg Except.ok hok

theorem Solver.Idle.checkCertificate (h : s.Idle F) :
    s.checkCertificate = .ok (.error .noRefutation) := by
  have hempty := (h.keeps.certified p hp).1
  unfold Solver.checkCertificate Solver.replay Certificate.replay
  rw [hp]
  dsimp only
  rw [hempty]
  rfl

end

/-- A search without assumptions that fails refutes the formula. -/
theorem Session.refuted_of_solve (h : Session s es)
    (hr : s.solve fuel [] = .ok (.unsatisfiable, s')) : s'.Refuted (formula es) := by
  obtain ⟨⟨hidle, -⟩ | ⟨hrefuted, -⟩, hvars⟩ := h.stands
  · obtain ⟨-, -, ⟨-, hne, -⟩ | ⟨hrefuted, -⟩⟩ := hidle.solve (Nat.lt_trans hvars (by decide)) hr
    · exact absurd rfl hne
    · exact hrefuted
  · exact (hrefuted.solve hr).1

theorem Session.refuted_of_mem (h : Session s es)
    (hx : (.solve fuel [], .answered .unsatisfiable) ∈ es) : ∃ F, s.Refuted F := by
  obtain ⟨config, s₀, hcreate, hsteps⟩ := h
  obtain ⟨es₁, es₂, s₁, s₂, -, hbefore, hcall, hafter⟩ := hsteps.exists_of_mem hx
  obtain ⟨⟨v, s₃⟩, hs₃, hcall⟩ := bind_eq_ok_iff.1 hcall
  obtain ⟨hv, rfl⟩ := Prod.mk.inj (Except.ok.inj hcall)
  obtain rfl : v = .unsatisfiable := by simpa using hv
  have hrefuted := Session.refuted_of_solve ⟨config, s₀, hcreate, hbefore⟩ hs₃
  exact ⟨_, (hafter.refuted hrefuted).1⟩

/-- The certificate is accepted once a contradiction or a conflict at level 0 was met, so whenever a
search without assumptions failed, and from then on. Up to then it has no refutation, and it never
has one if the formula is satisfiable. -/
theorem Session.certificate_decides {p : Certificate} (h : Session s es)
    (hp : s.certificate = some p) (hids : p.log.nextId < Event.distanceLimit) :
    (Contradicted es ∨ Notice.rootConflict ∈ s.journal → s.checkCertificate = .ok (.ok ())) ∧
    (¬ (Contradicted es ∨ Notice.rootConflict ∈ s.journal) →
      s.checkCertificate = .ok (.error .noRefutation)) ∧
    (∀ fuel, (.solve fuel [], .answered .unsatisfiable) ∈ es →
      s.checkCertificate = .ok (.ok ())) ∧
    ((formula es).Satisfiable → s.checkCertificate = .ok (.error .noRefutation)) ∧
    (s.checkCertificate = .ok (.ok ()) →
      ∀ fs s', Steps s fs s' → s'.checkCertificate = .ok (.ok ())) := by
  refine ⟨?_, ?_, ?_, ?_, ?_⟩
  · intro hmet
    rcases h.stands.1 with ⟨hidle, hcalm⟩ | ⟨hrefuted, -⟩
    · exact absurd hmet (not_or.2 ⟨hcalm, hidle.keeps.calm⟩)
    · exact hrefuted.checkCertificate hp hids
  · intro hcalm
    rcases h.stands.1 with ⟨hidle, -⟩ | ⟨-, hmet⟩
    · exact hidle.checkCertificate hp
    · exact absurd hmet hcalm
  · intro fuel hx
    obtain ⟨F, hrefuted⟩ := h.refuted_of_mem hx
    exact hrefuted.checkCertificate hp hids
  · intro hsat
    rcases h.stands.1 with ⟨hidle, -⟩ | ⟨hrefuted, -⟩
    · exact hidle.checkCertificate hp
    · exact absurd hsat hrefuted.unsatisfiable
  · intro hok fs s' hsteps
    rcases h.stands.1 with ⟨hidle, -⟩ | ⟨hrefuted, -⟩
    · rw [hidle.checkCertificate hp] at hok
      exact absurd hok (by simp)
    · obtain ⟨hrefuted', hpersists⟩ := hsteps.refuted hrefuted
      obtain ⟨p', hp', hlog⟩ := hpersists.log p hp
      exact hrefuted'.checkCertificate hp' (hlog ▸ hids)

/-- The clause that makes a variable true refutes nothing; the one that makes it false is refused, and
the certificate is accepted. -/
theorem Session.certificate_decides_opposite_units : ∃ s s' p p' es es', Session s es ∧
    s.certificate = some p ∧ p.log.nextId < Event.distanceLimit ∧
    s.checkCertificate = .ok (.error .noRefutation) ∧
    Session s' es' ∧ s'.certificate = some p' ∧ p'.log.nextId < Event.distanceLimit ∧
    s'.checkCertificate = .ok (.ok ()) := by
  have h₀ : Session _ [] :=
    Session.create (show Solver.create { Config.plain with certificate := true } = .ok _ from rfl)
  have h₁ := h₀.call (c := .newVars 1) trivial rfl (by decide)
  have h₂ := h₁.call (c := .addClause [1]) trivial rfl (by decide)
  have h₃ := h₂.call (c := .addClause [-1]) (r := .added (.error (.contradiction .emptyClause)))
    trivial rfl (by decide)
  have hcalm := Session.certificate_decides h₂ rfl (by decide)
  have hmet := Session.certificate_decides h₃ rfl (by decide)
  refine ⟨_, _, _, _, _, _, h₂, rfl, by decide, hcalm.2.2.2.1 ⟨fun _ => true, ?_⟩, h₃, rfl,
    by decide, hmet.1 ?_⟩
  · intro d hd
    obtain rfl : d = Demand.clause [⟨⟨1⟩, false⟩] := List.mem_singleton.1 hd
    exact Nat.le_refl 1
  · exact Or.inl ⟨_, List.mem_append_right _ List.mem_cons_self, trivial⟩

end Cdcl
