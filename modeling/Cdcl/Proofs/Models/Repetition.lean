import Cdcl.Proofs.Models.Permutation

/-!
# Repeated literals

An at-least constraint counts a literal as often as it occurs if it was true before, and once
otherwise. Unless that makes no difference, the constraint means something else after some unit clauses
than before them (`Solver.repetitions_depend_on_order`).
-/

namespace Cdcl
set_option autoImplicit false

/-- The literal of a number, or its negation if that is the one that is true. -/
def Assignment.side (a : Assignment) (raw : Int) : Int :=
  if a.makes (.ofSigned raw) then raw else -raw

variable {a b : Assignment} {raws : List Int} {raw : Int}

/-- The unit clauses of numbers. -/
def Call.units (raws : List Int) : List Call := raws.map fun raw => .addClause [raw]

theorem Assignment.makes_side (h : raw ≠ 0) :
    b.makes (.ofSigned (a.side raw)) = true ↔ b.makes (.ofSigned raw) = a.makes (.ofSigned raw) := by
  unfold side
  split
  · next hyes => rw [hyes]
  · next hno =>
    rw [Literal.ofSigned_neg h, makes_neg, Bool.not_eq_true', Bool.eq_false_iff.2 hno]

theorem Assignment.var_side (a : Assignment) (raw : Int) :
    (Literal.ofSigned (a.side raw)).var = (Literal.ofSigned raw).var := by
  unfold side
  split
  · rfl
  · simp [Literal.ofSigned]

theorem holds_units :
    Formula.Holds ((Call.units raws).flatMap Call.demands) a ↔
      ∀ raw ∈ raws, a.makes (.ofSigned raw) = true := by
  unfold Call.units Formula.Holds
  rw [List.flatMap_map]
  refine ⟨fun h raw hraw => ?_, fun h d hd => ?_⟩
  · have hunit : (Demand.clause [.ofSigned raw]).Holds a :=
      h _ (List.mem_flatMap.2 ⟨raw, hraw, List.mem_singleton_self _⟩)
    exact Assignment.satisfies_singleton.1 (Demand.holds_clause.1 hunit)
  · obtain ⟨raw, hraw, hd⟩ := List.mem_flatMap.1 hd
    obtain rfl := List.mem_singleton.1 hd
    exact Demand.holds_clause.2 (Assignment.satisfies_singleton.2 (h raw hraw))

namespace Intake

variable {t : Trail} {ls : List Literal}

/-- Where nothing is assigned every literal counts once. -/
theorem counted_of_blank (h : ∀ v, t.mark? v = none) : counted t ls = Literal.canonical ls := by
  have hholds : ls.filter t.holds = [] :=
    List.filter_eq_nil_iff.2 fun l _ => by simp [(Trail.unassigned_iff.1 (h l.var)).1]
  have hopen : ls.filter (isOpen t) = ls :=
    List.filter_eq_self.2 fun l _ => isOpen_iff.2 (h l.var)
  rw [counted, hholds, hopen, List.nil_append]

/-- Where all literals are assigned they count as often as they occur. -/
theorem count_counted_of_assigned (ha : a.Respects t) (h : ∀ l ∈ ls, t.mark? l.var ≠ none) :
    a.count (counted t ls) = a.count ls := by
  have hopen : ls.filter (isOpen t) = [] :=
    List.filter_eq_nil_iff.2 fun l hl => fun hin => h l hl (isOpen_iff.1 hin)
  rw [count_counted ha, count_eq ha ls, hopen]
  rfl

end Intake

namespace Solver

variable {s s' : Solver} {F : Formula} {n degree : Nat} {cs cs' : List Call} {rs : List Reply}
  {what : Handle}

theorem performAll_append (h : s.performAll (cs ++ cs') = .ok (rs, s')) :
    ∃ rs₁ rs₂ s₁, s.performAll cs = .ok (rs₁, s₁) ∧ s₁.performAll cs' = .ok (rs₂, s') := by
  induction cs generalizing s rs with
  | nil => exact ⟨[], rs, s, rfl, h⟩
  | cons c cs ih =>
    obtain ⟨⟨r, s₁⟩, hs₁, h⟩ := bind_eq_ok_iff.1 h
    obtain ⟨⟨rs', s₂⟩, hs₂, h⟩ := bind_eq_ok_iff.1 h
    obtain ⟨-, rfl⟩ := Prod.mk.inj (Except.ok.inj h)
    obtain ⟨rs₁, rs₂, s₃, hs₃, hrest⟩ := ih hs₂
    exact ⟨r :: rs₁, rs₂, s₃, bind_eq_ok_iff.2 ⟨_, hs₁, bind_eq_ok_iff.2 ⟨_, hs₃, rfl⟩⟩, hrest⟩

/-! ## Unit clauses fix their literals -/

/-- After the addition of a unit clause its literal is true, and what was true before still is. -/
theorem Idle.addClause_unit (h : s.Idle F) (hsized : s.Sized)
    (hr : s.addClause [raw] = .ok (.ok what, s')) :
    s'.trail.holds (.ofSigned raw) = true ∧
      ∀ l, s.trail.holds l = true → s'.trail.holds l = true := by
  obtain ⟨ls, hls, hr⟩ := bind_eq_ok_iff.1 hr
  obtain ⟨rfl, hnames⟩ := literals_eq_ok hsized.signed hls
  unfold Solver.addLiterals at hr
  rw [if_neg (by simp [h.keeps.undecided])] at hr
  obtain ⟨form, hform, hr⟩ := bind_eq_ok_iff.1 hr
  rcases Intake.clause_singleton hform with ⟨hholds, rfl⟩ | rfl | rfl
  · obtain ⟨-, rfl⟩ := Prod.mk.inj (Except.ok.inj hr)
    exact ⟨hholds, fun _ hl => hl⟩
  · obtain ⟨⟨id, s₁⟩, -, hr⟩ := bind_eq_ok_iff.1 hr
    simp at hr
  · have hleft : Intake.Remains s.trail [.ofSigned raw] [.ofSigned raw] :=
      Intake.clause_eq_ok hform
    obtain ⟨⟨id, s₁⟩, hs₁, hr⟩ := bind_eq_ok_iff.1 hr
    obtain ⟨⟨o, s₂⟩, hs₂, hr⟩ := bind_eq_ok_iff.1 hr
    obtain ⟨-, rfl⟩ := Prod.mk.inj (Except.ok.inj hr)
    obtain ⟨hlogs, h₁, hoffers⟩ := h.newClause hsized hnames hleft (by simp) hs₁
    have hname := hnames _ List.mem_cons_self
    have hnone := hleft.unassigned _ List.mem_cons_self
    have hcell : s.trail.Covers (Literal.ofSigned raw).var :=
      h.ready.sound.trail.covers hname
    rw [← hlogs.trail] at hname hnone hcell ⊢
    obtain ⟨hext, -⟩ :=
      h₁.assertUnit hname hnone hoffers (fun _ => Formula.holds_concat_unit) hs₂
    exact ⟨hext.holds ((Trail.holds_push hcell).2 (Or.inl rfl)),
      fun l hl => hext.holds ((Trail.holds_push hcell).2 (Or.inr hl))⟩

/-- Unit clauses that some model of the formula meets fix their literals. -/
theorem Idle.performAll_units (h : s.Idle F) (hsized : s.Sized) (hcert : s.certificate = none)
    (ha : F.Holds a) (hunits : ∀ raw ∈ raws, a.makes (.ofSigned raw) = true)
    (hr : s.performAll (Call.units raws) = .ok (rs, s')) :
    s'.Idle (F ++ (Call.units raws).flatMap Call.demands) ∧
      (∀ raw ∈ raws, s'.trail.holds (.ofSigned raw) = true) ∧
      (∀ l, s.trail.holds l = true → s'.trail.holds l = true) ∧
      s'.numVars = s.numVars ∧ s.Retains s' := by
  induction raws generalizing s F rs with
  | nil =>
    obtain ⟨-, rfl⟩ := Prod.mk.inj (Except.ok.inj hr)
    exact ⟨by simpa [Call.units] using h, by simp, fun _ hl => hl, rfl, .refl s⟩
  | cons raw raws ih =>
    obtain ⟨⟨r, s₁⟩, hs₁, hr⟩ := bind_eq_ok_iff.1 hr
    obtain ⟨⟨rs', s₂⟩, hs₂, hr⟩ := bind_eq_ok_iff.1 hr
    obtain ⟨-, rfl⟩ := Prod.mk.inj (Except.ok.inj hr)
    obtain ⟨⟨added, s₁⟩, hadd, hs₁⟩ := bind_eq_ok_iff.1 hs₁
    obtain ⟨-, rfl⟩ := Prod.mk.inj (Except.ok.inj hs₁)
    obtain ⟨hnum₁, htakes⟩ := h.addClause hsized hadd
    have hretains₁ := addClause_retains hadd
    have ha₁ : Formula.Holds (F ++ [Demand.clause [.ofSigned raw]]) a :=
      Formula.holds_concat_unit.2 ⟨ha, hunits raw List.mem_cons_self⟩
    cases added with
    | error e =>
      obtain ⟨ls, -, hadd⟩ := bind_eq_ok_iff.1 hadd
      obtain ⟨cause, rfl⟩ := addLiterals_error hadd
      have hrefuted : s₁.Refuted (F ++ [Demand.clause [.ofSigned raw]]) := htakes
      exact absurd ⟨a, ha₁⟩ hrefuted.unsatisfiable
    | ok what =>
      obtain ⟨hraw, hkept₁⟩ := h.addClause_unit hsized hadd
      obtain ⟨h₂, hraws, hkept₂, hnum₂, hretains₂⟩ := ih htakes (hretains₁.sized hnum₁ hsized)
        (hretains₁.certificate hcert) ha₁ (fun k hk => hunits k (List.mem_cons_of_mem _ hk)) hs₂
      refine ⟨?_, ?_, fun l hl => hkept₂ l (hkept₁ l hl), hnum₂.trans hnum₁,
        hretains₁.trans hretains₂⟩
      · rwa [List.append_assoc] at h₂
      · intro k hk
        rcases List.mem_cons.1 hk with rfl | hk
        · exact hkept₂ _ hraw
        · exact hraws k hk

/-! ## The order matters -/

/-- An at-least constraint means what the intake counts. -/
theorem Idle.perform_addAtLeast {r : Reply} (h : s.Idle F) (hsized : s.Sized)
    (hcert : s.certificate = none) (hdegree : degree < Word.addressable)
    (hr : s.perform (.addAtLeast raws degree) = .ok (r, s')) :
    s'.StandsFor (F ++ [⟨degree, Intake.counted s.trail (raws.map Literal.ofSigned)⟩]) ∧
      s'.numVars = s.numVars ∧ s.Retains s' := by
  obtain ⟨⟨added, s₁⟩, hadd, hr⟩ := bind_eq_ok_iff.1 hr
  obtain ⟨-, rfl⟩ := Prod.mk.inj (Except.ok.inj hr)
  obtain ⟨hnum, htakes⟩ := h.addAtLeast_counted hsized hdegree hadd
  refine ⟨htakes.standsFor ?_, hnum, addAtLeast_retains hadd⟩
  rintro e rfl
  exact addAtLeast_error hcert hadd

/-- After the unit clauses that an assignment makes true, a literal counts as often as it occurs. -/
theorem Fresh.units_then_atLeast (h : s.Fresh n) (hraws : ∀ raw ∈ raws, raw ≠ 0)
    (hdegree : degree < Word.addressable) (hmany : degree ≤ a.count (raws.map Literal.ofSigned))
    (hr : s.performAll (Call.units (raws.map a.side) ++ [.addAtLeast raws degree]) = .ok (rs, s')) :
    ∃ F, s'.StandsFor F ∧ F.Satisfiable ∧ s'.numVars = n ∧ s.Retains s' := by
  have hsides : ∀ raw ∈ raws.map a.side, a.makes (.ofSigned raw) = true := by
    intro raw hraw
    obtain ⟨raw, hmem, rfl⟩ := List.mem_map.1 hraw
    exact (Assignment.makes_side (hraws raw hmem)).2 rfl
  obtain ⟨rs₁, rs₂, s₁, hs₁, hr⟩ := performAll_append hr
  obtain ⟨h₁, hfixed, -, hnum₁, hretains₁⟩ :=
    h.idle.performAll_units h.sized h.certificate (a := a) (by simp [Formula.Holds]) hsides hs₁
  obtain ⟨⟨r, s₂⟩, hs₂, hr⟩ := bind_eq_ok_iff.1 hr
  obtain ⟨⟨rs', s₃⟩, hs₃, hr⟩ := bind_eq_ok_iff.1 hr
  obtain ⟨-, rfl⟩ := Prod.mk.inj (Except.ok.inj hr)
  obtain ⟨-, rfl⟩ := Prod.mk.inj (Except.ok.inj hs₃)
  obtain ⟨h₂, hnum₂, hretains₂⟩ := h₁.perform_addAtLeast (hretains₁.sized hnum₁ h.sized)
    (hretains₁.certificate h.certificate) hdegree hs₂
  have ha₁ : Formula.Holds ([] ++ (Call.units (raws.map a.side)).flatMap Call.demands) a :=
    holds_units.2 hsides
  refine ⟨_, h₂, ⟨a, Formula.holds_concat.2 ⟨ha₁, ?_⟩⟩, (hnum₂.trans hnum₁).trans h.numVars,
    hretains₁.trans hretains₂⟩
  unfold Demand.Holds
  rw [Intake.count_counted_of_assigned (h₁.respects ha₁) fun l hl hnone => ?_]
  · exact hmany
  · obtain ⟨raw, hraw, rfl⟩ := List.mem_map.1 hl
    obtain ⟨m, hm⟩ := Trail.exists_mark (hfixed _ (List.mem_map_of_mem hraw))
    rw [a.var_side raw, hnone] at hm
    exact absurd hm (by simp)

theorem Fresh.atLeast_then_units (h : s.Fresh n) (hraws : ∀ raw ∈ raws, raw ≠ 0)
    (hdegree : degree < Word.addressable)
    (hfew : a.count (Literal.canonical (raws.map Literal.ofSigned)) < degree)
    (hr : s.performAll (.addAtLeast raws degree :: Call.units (raws.map a.side)) = .ok (rs, s')) :
    ∃ F, s'.StandsFor F ∧ ¬ F.Satisfiable ∧ s'.numVars = n ∧ s.Retains s' := by
  obtain ⟨⟨r, s₁⟩, hs₁, hr⟩ := bind_eq_ok_iff.1 hr
  obtain ⟨⟨rs', s₂⟩, hs₂, hr⟩ := bind_eq_ok_iff.1 hr
  obtain ⟨-, rfl⟩ := Prod.mk.inj (Except.ok.inj hr)
  obtain ⟨h₁, hnum₁, hretains₁⟩ := h.idle.perform_addAtLeast h.sized h.certificate hdegree hs₁
  have hregular : ∀ c ∈ Call.units (raws.map a.side), c.Regular := by
    intro c hc
    obtain ⟨raw, -, rfl⟩ := List.mem_map.1 hc
    exact trivial
  obtain ⟨h₂, hnum₂, hretains₂⟩ := h₁.performAll_eq_ok (hretains₁.sized hnum₁ h.sized)
    (hretains₁.certificate h.certificate) hregular hs₂
  refine ⟨_, h₂, ?_, (hnum₂.trans hnum₁).trans h.numVars, hretains₁.trans hretains₂⟩
  rintro ⟨b, hb⟩
  obtain ⟨hb₁, hb₂⟩ := List.forall_mem_append.1 hb
  have hcount : degree ≤ b.count (Intake.counted s.trail (raws.map Literal.ofSigned)) :=
    hb₁ _ (List.mem_singleton_self _)
  have hunits := holds_units.1 hb₂
  rw [Intake.counted_of_blank h.blank] at hcount
  have hsame : b.count (Literal.canonical (raws.map Literal.ofSigned)) =
      a.count (Literal.canonical (raws.map Literal.ofSigned)) := by
    refine List.countP_congr fun l hl => ?_
    obtain ⟨raw, hraw, rfl⟩ := List.mem_map.1 (Literal.mem_canonical.1 hl)
    rw [(Assignment.makes_side (hraws raw hraw)).1 (hunits _ (List.mem_map_of_mem hraw))]
  omega

/-- Unless repeated literals make no difference to an at-least constraint, there are unit clauses
after which it can hold and before which it cannot. -/
theorem repetitions_depend_on_order (hn : n < Var.signedLimit) (hraws : InRange n raws)
    (hdegree : degree < Word.addressable)
    (hirregular : ¬ Demand.Regular ⟨degree, raws.map Literal.ofSigned⟩) :
    ∃ units, ∀ s s' : Solver, s.Fed n (Call.units units ++ [.addAtLeast raws degree]) →
      s'.Fed n (.addAtLeast raws degree :: Call.units units) →
      (∀ fuel v t, s.solve fuel [] = .ok (v, t) → v ≠ .unfinished → v = .satisfiable) ∧
        ∀ fuel v t, s'.solve fuel [] = .ok (v, t) → v ≠ .unfinished → v = .unsatisfiable := by
  obtain ⟨a, hmany, hfew⟩ : ∃ a : Assignment, degree ≤ a.count (raws.map Literal.ofSigned) ∧
      a.count (Literal.canonical (raws.map Literal.ofSigned)) < degree := by
    simpa [Demand.Regular] using hirregular
  have hne : ∀ raw ∈ raws, raw ≠ 0 := fun raw hraw => (hraws raw hraw).1
  refine ⟨raws.map a.side, fun s s' h h' => ⟨fun fuel v t hr hv => ?_, fun fuel v t hr hv => ?_⟩⟩
  · obtain ⟨s₀, rs, hfresh, hrun⟩ := h.fresh hn
    obtain ⟨F, hstands, hsat, hnum, hretains⟩ := hfresh.units_then_atLeast hne hdegree hmany hrun
    rcases hstands.solve_eq_ok (hretains.sized (hnum.trans hfresh.numVars.symm) hfresh.sized)
      (hretains.unlimited hfresh.unlimited) hr hv with ⟨hyes, -⟩ | ⟨-, hno⟩
    · exact hyes
    · exact absurd hsat hno
  · obtain ⟨s₀, rs, hfresh, hrun⟩ := h'.fresh hn
    obtain ⟨F, hstands, hunsat, hnum, hretains⟩ := hfresh.atLeast_then_units hne hdegree hfew hrun
    rcases hstands.solve_eq_ok (hretains.sized (hnum.trans hfresh.numVars.symm) hfresh.sized)
      (hretains.unlimited hfresh.unlimited) hr hv with ⟨-, hyes⟩ | ⟨hno, -⟩
    · exact absurd hyes hunsat
    · exact hno

/-- A literal that occurs twice can meet the degree 2 after its unit clause and cannot before. -/
theorem repetitions_depend_on_order_unit : ∃ s s' t t' : Solver,
    s.Fed 1 [.addAtLeast [1, 1] 2, .addClause [1]] ∧
    s'.Fed 1 [.addClause [1], .addAtLeast [1, 1] 2] ∧
    s.solve 1 [] = .ok (.unsatisfiable, t) ∧ s'.solve 1 [] = .ok (.satisfiable, t') := by
  obtain ⟨s, hfed, hrefuted⟩ : ∃ s : Solver,
      s.Fed 1 [.addAtLeast [1, 1] 2, .addClause [1]] ∧ s.refuted = true :=
    ⟨_, ⟨Config.plain, _, _, rfl, rfl, rfl⟩, rfl⟩
  obtain ⟨s', hfed', hquiet, hopen, hb, hnever, hentries, hk, o, hpick⟩ : ∃ s' : Solver,
      s'.Fed 1 [.addClause [1], .addAtLeast [1, 1] 2] ∧ s'.Quiet ∧ s'.refuted = false ∧
        s'.budget = .ok ⟨none, none⟩ ∧ s'.restarts = .never ∧ s'.store.entries = [] ∧
        s'.kernel.propagate = .ok (none, s'.kernel) ∧
        ∃ o, s'.order.select s'.trail = .ok (none, .uniform o) :=
    ⟨_, ⟨Config.plain, _, _, rfl, rfl, rfl⟩, ⟨rfl, rfl⟩, rfl, rfl, rfl, rfl, rfl, _, rfl⟩
  obtain ⟨t, ht⟩ := solve_of_refuted hrefuted 1 []
  obtain ⟨_, _, _, _, ht'⟩ := hquiet.solve_of_full hopen hb hnever hk (Or.inr hentries) hpick
  exact ⟨s, s', t, _, hfed, hfed', ht, ht'⟩

end Solver
end Cdcl
