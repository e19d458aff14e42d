import Cdcl.Models
import Cdcl.Proofs.Models.Vectors
import Cdcl.Proofs.Progress.Session
import Cdcl.Proofs.Solver.Guarantees
import Cdcl.Proofs.Solver.Limits

/-!
# What an enumeration gives

An enumeration that has given some models stands for what is `left` of the formula once these are
excluded (`Models.Enumerates`). One call of `next` gives a further model, or finds that none is left,
or has used up its steps (`Enumerates.next`). So unless the steps are used up, a whole enumeration gives
every model once (`Enumerates.calls`), and the count of models is their number (`Enumerates.count`).
-/

namespace Cdcl
set_option autoImplicit false

/-- What is left of a formula once the given vectors are excluded. -/
def Formula.left (F : Formula) (ms : List (List Int)) : Formula := F ++ ms.map Demand.excluding

theorem Solver.solve_of_refuted {s : Solver} (h : s.refuted = true) (fuel : Nat) (raws : List Int) :
    ∃ s', s.solve fuel raws = .ok (.unsatisfiable, s') := ⟨_, solve_eq_of_refuted h⟩

namespace Models

variable {s s' : Solver} {F : Formula} {vars fuel : Nat} {ms : List (List Int)} {m : List Int}
  {e e' : Models} {o : Option Item} {os : List (Option Item)} {fuels : List Nat} {n : Nat}

theorem holds_left {a : Assignment} :
    (F.left ms).Holds a ↔ F.Holds a ∧ ∀ m ∈ ms, (Demand.excluding m).Holds a := by
  simp [Formula.left, Formula.Holds, or_imp, forall_and]

theorem left_concat : F.left (ms ++ [m]) = F.left ms ++ [Demand.excluding m] := by
  simp [Formula.left]

/-- An enumeration of the models of a formula that has given the listed ones. -/
structure Enumerates (vars : Nat) (F : Formula) (ms : List (List Int)) (e : Models) : Prop where
  numVars : e.solver.numVars = vars
  sized : e.solver.Sized
  unlimited : e.solver.Unlimited
  nodup : ms.Nodup
  models : ∀ m ∈ ms, m ∈ modelsOf vars F
  stands : (e.done = false ∧ e.solver.Idle (F.left ms)) ∨ e.solver.Refuted (F.left ms)

/-- Once nothing is left, every model was given. -/
theorem perm_of_unsatisfiable (hnodup : ms.Nodup) (hmodels : ∀ m ∈ ms, m ∈ modelsOf vars F)
    (h : ¬ (F.left ms).Satisfiable) : ms.Perm (modelsOf vars F) := by
  refine (List.perm_ext_iff_of_nodup hnodup nodup_modelsOf).2 fun m => ⟨hmodels m, fun hm => ?_⟩
  by_contra hnot
  obtain ⟨hvector, hholds⟩ := mem_modelsOf.1 hm
  refine h ⟨Assignment.ofModel m, holds_left.2 ⟨hholds, fun m' hm' => ?_⟩⟩
  refine ((mem_modelsOf.1 (hmodels m' hm')).1.holds_excluding hvector).2 ?_
  rintro rfl
  exact hnot hm'

/-- A model that was found is excluded from then on. -/
theorem Enumerates.exclude {added : Added} {done : Bool} (h : Enumerates vars F ms e)
    (hidle : s.Idle (F.left ms)) (hnum : s.numVars = vars) (hretains : e.solver.Retains s)
    (hm : IsModel m vars (F.left ms) [])
    (hr : s.addClause (m.map (- ·)) = .ok (added, s'))
    (hdone : ∀ what, added = .ok what → done = false) :
    Enumerates vars F (ms ++ [m]) ⟨s', done⟩ := by
  have hsized : s.Sized := hretains.sized (hnum.trans h.numVars.symm) h.sized
  obtain ⟨hnum', htakes⟩ := hidle.addClause hsized hr
  have hretains' := Solver.addClause_retains hr
  obtain ⟨hF, hothers⟩ := holds_left.1 hm.holds
  have hvector : IsVector vars m := ⟨hm.length, hm.signed⟩
  refine ⟨hnum'.trans hnum, hretains'.sized hnum' hsized,
    (hretains.trans hretains').unlimited h.unlimited, ?_, ?_, ?_⟩
  -- the clauses of the earlier models exclude these, so the model is new
  · refine List.nodup_append.2 ⟨h.nodup, List.nodup_singleton m, fun k hk k' hk' => ?_⟩
    obtain rfl := List.mem_singleton.1 hk'
    exact (((mem_modelsOf.1 (h.models k hk)).1.holds_excluding hvector).1 (hothers k hk)).symm
  · intro k hk
    rcases List.mem_append.1 hk with hk | hk
    · exact h.models k hk
    · exact List.mem_singleton.1 hk ▸ mem_modelsOf.2 ⟨hvector, hF⟩
  · rw [left_concat]
    cases added with
    | ok what => exact Or.inl ⟨hdone what rfl, htakes⟩
    -- this was the last model: its clause leaves none
    | error err =>
      obtain ⟨raws, -, hr⟩ := bind_eq_ok_iff.1 hr
      obtain ⟨cause, rfl⟩ := Solver.addLiterals_error hr
      exact Or.inr htakes

/-- One call gives a further model, or no model is left, or the steps are used up. -/
theorem Enumerates.next (h : Enumerates vars F ms e) (hr : e.next fuel = .ok (o, e')) :
    (∃ m, o = some (.model m) ∧ Enumerates vars F (ms ++ [m]) e') ∨
      (o = none ∧ e'.done = true ∧ e'.solver.Refuted (F.left ms)) ∨
      (o = some .unfinished ∧ e'.done = true) := by
  unfold Models.next at hr
  rcases h.stands with ⟨hdone, hidle⟩ | hrefuted
  · rw [if_neg (by simp [hdone])] at hr
    obtain ⟨⟨v, s₁⟩, hs₁, hr⟩ := bind_eq_ok_iff.1 hr
    obtain ⟨hnum₁, hlevel, hends⟩ := hidle.solve h.sized.signed hs₁
    obtain ⟨hretains, hv⟩ := Solver.solve_retains hs₁
    cases v with
    | satisfiable =>
      obtain ⟨⟨added, s₂⟩, hs₂, hr⟩ := bind_eq_ok_iff.1 hr
      obtain ⟨rfl, rfl⟩ := Prod.mk.inj (Except.ok.inj hr)
      obtain ⟨hsane, m, hm, hmodel⟩ := hends
      rw [hm, Option.getD_some] at hs₂ ⊢
      rw [hnum₁, h.numVars] at hmodel
      refine Or.inl ⟨m, rfl, h.exclude ⟨hsane, hlevel⟩ (hnum₁.trans h.numVars) hretains hmodel
        hs₂ ?_⟩
      rintro what rfl
      rfl
    | unsatisfiable =>
      obtain ⟨rfl, rfl⟩ := Prod.mk.inj (Except.ok.inj hr)
      rcases hends with ⟨-, hne, -⟩ | ⟨hrefuted, -⟩
      · exact absurd rfl hne
      · exact Or.inr (Or.inl ⟨rfl, rfl, hrefuted⟩)
    | timeout => exact absurd rfl (hv h.unlimited)
    | unfinished =>
      obtain ⟨rfl, rfl⟩ := Prod.mk.inj (Except.ok.inj hr)
      exact Or.inr (Or.inr ⟨rfl, rfl⟩)
  · refine Or.inr (Or.inl ?_)
    split at hr
    · next hdone =>
      obtain ⟨rfl, rfl⟩ := Prod.mk.inj (Except.ok.inj hr)
      exact ⟨rfl, hdone, hrefuted⟩
    · obtain ⟨⟨v, s₁⟩, hs₁, hr⟩ := bind_eq_ok_iff.1 hr
      obtain ⟨hrefuted₁, -, rfl, -⟩ := hrefuted.solve hs₁
      obtain ⟨rfl, rfl⟩ := Prod.mk.inj (Except.ok.inj hr)
      exact ⟨rfl, rfl, hrefuted₁⟩

theorem next_of_done (h : e.done = true) (fuel : Nat) : e.next fuel = .ok (none, e) := if_pos h

theorem Enumerates.start (hs : s.Idle F ∨ s.Refuted F) (hsized : s.Sized)
    (hunlimited : s.Unlimited) : Enumerates s.numVars F [] ⟨s, false⟩ where
  numVars := rfl
  sized := hsized
  unlimited := hunlimited
  nodup := List.nodup_nil
  models := fun m hm => absurd hm List.not_mem_nil
  stands := by
    rw [Formula.left, List.map_nil, List.append_nil]
    exact hs.imp_left fun hidle => ⟨rfl, hidle⟩

theorem Enumerates.note {n : Notice} (h : Enumerates vars F ms e) (hn : n ≠ .rootConflict) :
    Enumerates vars F ms { e with solver := e.solver.note n } where
  numVars := h.numVars
  sized := ⟨h.sized.signed, h.sized.recorded⟩
  unlimited := ⟨h.unlimited.time, h.unlimited.conflicts⟩
  nodup := h.nodup
  models := h.models
  stands := h.stands.imp
    (fun ⟨hdone, hidle⟩ => ⟨hdone, ⟨hidle.ready, hidle.keeps.note hn, hidle.lists⟩, hidle.level⟩)
    fun hrefuted => hrefuted.of_eq rfl rfl

/-! ## Whole enumerations -/

/-- Calls of `next` one after the other, each with its own bound on the steps. -/
def calls (e : Models) : List Nat → Except Fault (List (Option Item) × Models)
  | [] => .ok ([], e)
  | fuel :: fuels => do
    let (o, e) ← e.next fuel
    let (os, e) ← e.calls fuels
    .ok (o :: os, e)

theorem calls_of_done (h : e.done = true) (fuels : List Nat) :
    e.calls fuels = .ok (List.replicate fuels.length none, e) := by
  induction fuels with
  | nil => rfl
  | cons fuel fuels ih =>
    exact bind_eq_ok_iff.2 ⟨_, next_of_done h fuel, bind_eq_ok_iff.2 ⟨_, ih, rfl⟩⟩

/-- Unless the steps are used up, the calls give models, each one once, and nothing from the point on
where no model is left. -/
theorem Enumerates.calls (h : Enumerates vars F ms e) (hr : e.calls fuels = .ok (os, e'))
    (hfinished : some .unfinished ∉ os) :
    ∃ more k, os = more.map (some ∘ .model) ++ List.replicate k none ∧ (ms ++ more).Nodup ∧
      (∀ m ∈ ms ++ more, m ∈ modelsOf vars F) ∧
      (0 < k → e'.solver.Refuted (F.left (ms ++ more))) := by
  induction fuels generalizing ms e os with
  | nil =>
    obtain ⟨rfl, rfl⟩ := Prod.mk.inj (Except.ok.inj hr)
    exact ⟨[], 0, rfl, by simpa using h.nodup, by simpa using h.models, fun hk => absurd hk (by simp)⟩
  | cons fuel fuels ih =>
    obtain ⟨⟨o, e₁⟩, he₁, hr⟩ := bind_eq_ok_iff.1 hr
    obtain ⟨⟨os, e₂⟩, he₂, hr⟩ := bind_eq_ok_iff.1 hr
    obtain ⟨rfl, rfl⟩ := Prod.mk.inj (Except.ok.inj hr)
    have hrest : some .unfinished ∉ os := fun hin => hfinished (List.mem_cons_of_mem _ hin)
    rcases h.next he₁ with ⟨m, rfl, h₁⟩ | ⟨rfl, hdone, hrefuted⟩ | ⟨rfl, -⟩
    · obtain ⟨more, k, rfl, hmore⟩ := ih h₁ he₂ hrest
      refine ⟨m :: more, k, rfl, ?_⟩
      rwa [List.append_cons]
    · rw [calls_of_done hdone] at he₂
      obtain ⟨rfl, rfl⟩ := Prod.mk.inj (Except.ok.inj he₂)
      exact ⟨[], fuels.length + 1, rfl, by simpa using h.nodup, by simpa using h.models,
        fun _ => by simpa using hrefuted⟩
    · exact absurd List.mem_cons_self hfinished

theorem Enumerates.countFrom {limit : Nat} {tally : Tally} (h : Enumerates vars F ms e)
    (hlimit : ms.length + limit = 2 ^ vars + 1)
    (hr : countFrom fuel limit ms.length e = .ok (tally, e')) (hfinished : tally ≠ .unfinished) :
    tally = .exact (modelsOf vars F).length ∧ ∃ G, e'.solver.Refuted G := by
  induction limit generalizing ms e with
  | zero =>
    -- the limit was not reached: there are no more than `2 ^ vars` distinct models
    have hle := (List.subperm_of_subset h.nodup h.models).length_le
    have hbound : (modelsOf vars F).length ≤ 2 ^ vars := length_modelsOf_le
    omega
  | succ limit ih =>
    obtain ⟨⟨o, e₁⟩, he₁, hr⟩ := bind_eq_ok_iff.1 hr
    rcases h.next he₁ with ⟨m, rfl, h₁⟩ | ⟨rfl, -, hrefuted⟩ | ⟨rfl, -⟩
    · have hlength : (ms ++ [m]).length = ms.length + 1 := List.length_append
      exact ih (h₁.note (by simp)) (by omega) (hlength ▸ hr)
    · obtain ⟨rfl, rfl⟩ := Prod.mk.inj (Except.ok.inj hr)
      refine ⟨?_, _, hrefuted⟩
      rw [(perm_of_unsatisfiable h.nodup h.models hrefuted.unsatisfiable).length_eq]
    · obtain ⟨rfl, -⟩ := Prod.mk.inj (Except.ok.inj hr)
      exact absurd rfl hfinished

theorem Enumerates.count {tally : Tally} (h : Enumerates s.numVars F [] ⟨s, false⟩)
    (hr : Models.count s fuel = .ok (tally, s')) (hfinished : tally ≠ .unfinished) :
    tally = .exact (modelsOf s.numVars F).length ∧ ∃ G, s'.Refuted G := by
  obtain ⟨⟨tally, e⟩, he, hr⟩ := bind_eq_ok_iff.1 hr
  obtain ⟨rfl, rfl⟩ := Prod.mk.inj (Except.ok.inj hr)
  exact h.countFrom (Nat.zero_add _) he hfinished

/-! ## Enumerations do not get stuck -/

theorem inRange_excluding (h : IsVector vars m) : InRange vars (m.map (- ·)) := by
  intro raw hraw
  obtain ⟨x, hx, rfl⟩ := List.mem_map.1 hraw
  have := h.entry_ne_zero hx
  omega

/-- A call has a result. It takes a restart interval to start with and at most one for each step. -/
theorem Enumerates.next_succeeds (h : Enumerates vars F ms e)
    (hs : e.solver.Supplied (fuel + 1 + n)) :
    ∃ o e', e.next fuel = .ok (o, e') ∧ e'.solver.Supplied n := by
  unfold Models.next
  split
  · exact ⟨_, _, rfl, hs.mono (Nat.le_add_left n _)⟩
  · have hidle : e.solver.refuted = false → e.solver.Idle (F.left ms) := by
      intro hno
      rcases h.stands with ⟨-, hidle⟩ | hrefuted
      · exact hidle
      · exact absurd (hno.symm.trans hrefuted.refuted) (by simp)
    obtain ⟨v, s₁, hs₁, hsup⟩ :=
      hs.solve hidle h.sized.signed fun _ hraw => absurd hraw List.not_mem_nil
    cases v with
    | satisfiable =>
      have hno : e.solver.refuted = false := by
        rw [Bool.eq_false_iff]
        intro hrefuted
        obtain ⟨s', hs'⟩ := Solver.solve_of_refuted hrefuted fuel []
        exact absurd (hs'.symm.trans hs₁) (by simp)
      obtain ⟨hnum₁, hlevel, hsane, m, hm, hmodel⟩ := (hidle hno).solve h.sized.signed hs₁
      have hvector : IsVector s₁.numVars m := ⟨hmodel.length, hmodel.signed⟩
      obtain ⟨added, s₂, hs₂, hsup₂⟩ := hsup.addClause (fun _ => ⟨hsane, hlevel⟩)
        ((Solver.solve_retains hs₁).1.sized hnum₁ h.sized) (inRange_excluding hvector)
      refine ⟨_, _, bind_eq_ok_iff.2 ⟨_, hs₁, bind_eq_ok_iff.2 ⟨(added, s₂), ?_, rfl⟩⟩, hsup₂⟩
      rwa [hm, Option.getD_some]
    | unsatisfiable | timeout | unfinished =>
      exact ⟨_, _, bind_eq_ok_iff.2 ⟨_, hs₁, rfl⟩, hsup⟩

theorem Enumerates.calls_of_supplied (h : Enumerates vars F ms e)
    (hs : e.solver.Supplied (fuels.map (· + 1)).sum) : ∃ os e', e.calls fuels = .ok (os, e') := by
  induction fuels generalizing ms e with
  | nil => exact ⟨_, _, rfl⟩
  | cons fuel fuels ih =>
    rw [List.map_cons, List.sum_cons] at hs
    obtain ⟨o, e₁, he₁, hs₁⟩ := h.next_succeeds hs
    have hrest : ∃ os e', e₁.calls fuels = .ok (os, e') := by
      rcases h.next he₁ with ⟨m, -, h₁⟩ | ⟨-, hdone, -⟩ | ⟨-, hdone⟩
      · exact ih h₁ hs₁
      · exact ⟨_, _, calls_of_done hdone fuels⟩
      · exact ⟨_, _, calls_of_done hdone fuels⟩
    obtain ⟨os, e', he'⟩ := hrest
    exact ⟨_, _, bind_eq_ok_iff.2 ⟨_, he₁, bind_eq_ok_iff.2 ⟨_, he', rfl⟩⟩⟩

theorem Enumerates.countFrom_succeeds {limit : Nat} (h : Enumerates vars F ms e)
    (hs : e.solver.Supplied (limit * (fuel + 1))) (count : Nat) :
    ∃ tally e', Models.countFrom fuel limit count e = .ok (tally, e') := by
  induction limit generalizing ms e count with
  | zero => exact ⟨_, _, rfl⟩
  | succ limit ih =>
    rw [Nat.succ_mul, Nat.add_comm] at hs
    obtain ⟨o, e₁, he₁, hs₁⟩ := h.next_succeeds hs
    rcases h.next he₁ with ⟨m, rfl, h₁⟩ | ⟨rfl, -⟩ | ⟨rfl, -⟩
    · obtain ⟨tally, e', he'⟩ :=
        ih (h₁.note (n := .modelFound (count + 1)) (by simp)) (hs₁.note _) (count + 1)
      exact ⟨tally, e', bind_eq_ok_iff.2 ⟨_, he₁, he'⟩⟩
    · exact ⟨_, _, bind_eq_ok_iff.2 ⟨_, he₁, rfl⟩⟩
    · exact ⟨_, _, bind_eq_ok_iff.2 ⟨_, he₁, rfl⟩⟩

end Models

end Cdcl
