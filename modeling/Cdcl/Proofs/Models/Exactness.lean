import Cdcl.Proofs.Models.Enumeration
import Cdcl.Proofs.Progress.Termination

/-!
# Enumerations are exact

Without limits and restarts every search has an answer after some steps (`Steady.answers`), so every
call of `next` gives a model or finds that none is left (`Enumerates.next_finishes`). As there are
finitely many models, the same number of steps is enough for all calls of an enumeration
(`Enumerates.calls_finish`) and for a count (`Enumerates.countFrom_finishes`). So enumerations are
exact, and without restarts they are complete (`Session.enumeration_exact`).
-/

namespace Cdcl
set_option autoImplicit false

namespace Solver

/-- A solver between two calls that never starts over. -/
structure Steady (s : Solver) : Prop where
  standing : s.Standing
  level : s.trail.level = 0
  never : s.restarts = .never

variable {s s' : Solver} {c : Call} {r : Reply}

theorem Steady.rests (h : s.Steady) : s.Rests :=
  h.standing.stood.imp (fun ⟨F, hs, _⟩ => ⟨F, hs, h.level⟩) And.left

theorem Steady.perform (h : s.Steady) (hc : c.Proper s.numVars)
    (hr : s.perform c = .ok (r, s')) : s'.Steady := by
  obtain ⟨-, hnum⟩ := h.rests.perform_eq_ok h.standing.vars hc hr
  obtain ⟨hstanding, hlevel⟩ := h.standing.perform h.level hc.representable hr
    (hnum ▸ hc.varsAfter_lt h.standing.vars)
  exact ⟨hstanding, hlevel, Restart.eq_never_of_precedes (h.never ▸ perform_precedes hr)⟩

theorem Steady.note {n : Notice} (h : s.Steady) (hn : n ≠ .rootConflict) : (s.note n).Steady :=
  ⟨h.standing.note hn, h.level, h.never⟩

theorem Steady.supplied (h : s.Steady) (hunlimited : s.Unlimited) (hopen : s.refuted = false)
    (n : Nat) : s.Supplied n := by
  obtain ⟨F, -, he⟩ := h.standing.idle h.level hopen
  have hpace : s.pace = .free := by
    unfold pace
    rw [hunlimited.time, hunlimited.conflicts, h.never]
    rfl
  have hsame : s.paced s.pace = s := rfl
  rw [← hsame, hpace]
  exact he.supplied

theorem Steady.answers (h : s.Steady) (hunlimited : s.Unlimited) :
    Answers fun fuel => s.solve fuel [] := by
  simp only [solve_eq_solveBy]
  exact (h.standing.solveBy_finishes h.level (fun _ _ _ => Strategy.own_allowed) h.never
    (fun _ hraw => absurd hraw List.not_mem_nil) hunlimited.budget_eq).answers

end Solver

namespace Models

variable {F : Formula} {vars fuel : Nat} {ms : List (List Int)} {e e' : Models}
  {o : Option Item} {os : List (Option Item)} {fuels : List Nat}

/-! ## One call -/

/-- The steps only matter for the search. -/
theorem next_congr {fuel' : Nat} (h : e.solver.solve fuel [] = e.solver.solve fuel' []) :
    e.next fuel = e.next fuel' := by
  unfold next
  rw [h]

theorem next_of_model {s₁ s₂ : Solver} {m : List Int} {added : Added} (hdone : e.done = false)
    (hsolve : e.solver.solve fuel [] = .ok (.satisfiable, s₁)) (hm : s₁.model = some m)
    (hadd : s₁.addClause (m.map (- ·)) = .ok (added, s₂)) :
    e.next fuel = .ok (some (.model m), ⟨s₂, !added.isOk⟩) := by
  unfold next
  rw [if_neg (by simp [hdone])]
  refine bind_eq_ok_iff.2 ⟨_, hsolve, ?_⟩
  dsimp only
  rw [hm]
  refine bind_eq_ok_iff.2 ⟨_, hadd, ?_⟩
  cases added <;> rfl

theorem next_steady (hs : e.solver.Steady) (hr : e.next fuel = .ok (o, e')) : e'.solver.Steady := by
  unfold next at hr
  split at hr
  · obtain ⟨-, rfl⟩ := Prod.mk.inj (Except.ok.inj hr)
    exact hs
  · obtain ⟨⟨v, s₁⟩, hs₁, hr⟩ := bind_eq_ok_iff.1 hr
    have h₁ : s₁.Steady := hs.perform (c := .solve fuel [])
      (fun _ hraw => absurd hraw List.not_mem_nil) (bind_eq_ok_iff.2 ⟨_, hs₁, rfl⟩)
    cases v with
    | satisfiable =>
      obtain ⟨⟨added, s₂⟩, hs₂, hr⟩ := bind_eq_ok_iff.1 hr
      obtain ⟨-, rfl⟩ := Prod.mk.inj (Except.ok.inj hr)
      obtain ⟨ls, hls, -⟩ := bind_eq_ok_iff.1 hs₂
      exact h₁.perform (c := .addClause _) (Solver.inRange_of_literals hls)
        (bind_eq_ok_iff.2 ⟨_, hs₂, rfl⟩)
    | unsatisfiable | timeout | unfinished =>
      obtain ⟨-, rfl⟩ := Prod.mk.inj (Except.ok.inj hr)
      exact h₁

theorem Enumerates.next_exists (h : Enumerates vars F ms e) (hs : e.solver.Steady) (fuel : Nat) :
    ∃ o e', e.next fuel = .ok (o, e') := by
  rcases h.stands with ⟨-, hidle⟩ | hrefuted
  · obtain ⟨o, e', he', -⟩ :=
      h.next_succeeds (n := 0) (hs.supplied h.unlimited hidle.keeps.undecided _)
    exact ⟨o, e', he'⟩
  · unfold Models.next
    split
    · exact ⟨_, _, rfl⟩
    · obtain ⟨s', hs'⟩ := Solver.solve_of_refuted hrefuted.refuted fuel []
      exact ⟨_, _, bind_eq_ok_iff.2 ⟨_, hs', rfl⟩⟩

/-- A call whose search has an answer does not use up its steps. -/
theorem ne_unfinished {v : Verdict} {s' : Solver} (hv : v = .satisfiable ∨ v = .unsatisfiable)
    (hsolve : e.solver.solve fuel [] = .ok (v, s')) (hr : e.next fuel = .ok (o, e')) :
    o ≠ some .unfinished := by
  rintro rfl
  unfold next at hr
  split at hr
  · exact absurd hr (by simp)
  · obtain ⟨_, hsame, hr⟩ := bind_eq_ok_iff.1 hr
    obtain rfl := Except.ok.inj (hsolve.symm.trans hsame)
    rcases hv with rfl | rfl
    · obtain ⟨_, -, hr⟩ := bind_eq_ok_iff.1 hr
      exact absurd hr (by simp)
    · exact absurd hr (by simp)

/-- With enough steps a call gives a further model, or no model is left. -/
theorem Enumerates.next_finishes (h : Enumerates vars F ms e) (hs : e.solver.Steady) :
    ∃ n o e', (∀ fuel, n ≤ fuel → e.next fuel = .ok (o, e')) ∧ e'.solver.Steady ∧
      ((∃ m, o = some (.model m) ∧ Enumerates vars F (ms ++ [m]) e') ∨
        (o = none ∧ e'.done = true)) := by
  obtain ⟨n, v, s₁, hv, hsolve⟩ := hs.answers h.unlimited
  obtain ⟨o, e', he'⟩ := h.next_exists hs n
  refine ⟨n, o, e', fun fuel hfuel => ?_, next_steady hs he', ?_⟩
  · exact (next_congr ((hsolve fuel hfuel).trans (hsolve n (Nat.le_refl n)).symm)).trans he'
  · rcases h.next he' with hmodel | ⟨hnone, hdone, -⟩ | ⟨hunfinished, -⟩
    · exact Or.inl hmodel
    · exact Or.inr ⟨hnone, hdone⟩
    · exact absurd hunfinished (ne_unfinished hv (hsolve n (Nat.le_refl n)) he')

/-! ## Whole enumerations -/

theorem Enumerates.length_le (h : Enumerates vars F ms e) :
    ms.length ≤ (modelsOf vars F).length := (List.subperm_of_subset h.nodup h.models).length_le

/-- The items of an enumeration tell its models. -/
theorem items_inj {ms' : List (List Int)} {k k' : Nat}
    (h : ms.map (some ∘ Item.model) ++ List.replicate k none =
      ms'.map (some ∘ Item.model) ++ List.replicate k' none) : ms = ms' ∧ k = k' := by
  induction ms generalizing ms' with
  | nil =>
    cases ms' with
    | nil => exact ⟨rfl, by simpa using congrArg List.length h⟩
    | cons m' ms' => cases k <;> simp [List.replicate_succ] at h
  | cons m ms ih =>
    cases ms' with
    | nil => cases k' <;> simp [List.replicate_succ] at h
    | cons m' ms' =>
      obtain ⟨hm, hms⟩ := List.cons.inj h
      obtain rfl : m = m' := by simpa using hm
      obtain ⟨rfl, rfl⟩ := ih hms
      exact ⟨rfl, rfl⟩

theorem length_calls (hr : e.calls fuels = .ok (os, e')) : os.length = fuels.length := by
  induction fuels generalizing e e' os with
  | nil =>
    obtain ⟨rfl, -⟩ := Prod.mk.inj (Except.ok.inj hr)
    rfl
  | cons fuel fuels ih =>
    obtain ⟨⟨o, e₁⟩, -, hr⟩ := bind_eq_ok_iff.1 hr
    obtain ⟨⟨os, e₂⟩, he₂, hr⟩ := bind_eq_ok_iff.1 hr
    obtain ⟨rfl, -⟩ := Prod.mk.inj (Except.ok.inj hr)
    exact congrArg (· + 1) (ih he₂)

/-- Some number of steps is enough for any number of calls: each one leaves fewer models, and once
none is left no steps are taken any more. -/
theorem Enumerates.calls_finish (h : Enumerates vars F ms e) (hs : e.solver.Steady) :
    ∃ n, ∀ fuels, (∀ fuel ∈ fuels, n ≤ fuel) →
      ∃ os e', e.calls fuels = .ok (os, e') ∧ some .unfinished ∉ os := by
  induction hleft : (modelsOf vars F).length - ms.length using WellFoundedLT.induction
    generalizing ms e with
  | ind _ ih =>
    subst hleft
    obtain ⟨n, o, e₁, he₁, hs₁, ⟨m, rfl, h₁⟩ | ⟨rfl, hdone⟩⟩ := h.next_finishes hs
    · have hlt : (modelsOf vars F).length - (ms ++ [m]).length <
          (modelsOf vars F).length - ms.length := by
        have hle := h₁.length_le
        rw [List.length_append, List.length_singleton] at hle ⊢
        omega
      obtain ⟨n', hrest⟩ := ih _ hlt h₁ hs₁ rfl
      refine ⟨max n n', fun fuels hfuels => ?_⟩
      cases fuels with
      | nil => exact ⟨[], e, rfl, List.not_mem_nil⟩
      | cons fuel fuels =>
        obtain ⟨hfuel, hfuels⟩ := List.forall_mem_cons.1 hfuels
        obtain ⟨os, e', hos, hfinished⟩ :=
          hrest fuels fun fuel hmem => Nat.le_trans (Nat.le_max_right n n') (hfuels fuel hmem)
        have hnext := he₁ fuel (Nat.le_trans (Nat.le_max_left n n') hfuel)
        exact ⟨_, e', bind_eq_ok_iff.2 ⟨_, hnext, bind_eq_ok_iff.2 ⟨_, hos, rfl⟩⟩,
          by simpa using hfinished⟩
    · refine ⟨n, fun fuels hfuels => ?_⟩
      cases fuels with
      | nil => exact ⟨[], e, rfl, List.not_mem_nil⟩
      | cons fuel fuels =>
        have hnext := he₁ fuel (hfuels fuel List.mem_cons_self)
        exact ⟨_, e₁, bind_eq_ok_iff.2 ⟨_, hnext,
          bind_eq_ok_iff.2 ⟨_, calls_of_done hdone fuels, rfl⟩⟩, by simp⟩

/-- With enough steps for each call, more calls than there are models give all of them, and then
nothing any more. -/
theorem Enumerates.calls_exact (h : Enumerates vars F [] e) (hs : e.solver.Steady) :
    ∃ n, ∀ fuels, (modelsOf vars F).length < fuels.length → (∀ fuel ∈ fuels, n ≤ fuel) →
      ∃ (more : List (List Int)) (k : Nat) (e' : Models), e.calls fuels =
        .ok (more.map (some ∘ .model) ++ List.replicate (k + 1) none, e') ∧
        more.Perm (modelsOf vars F) := by
  obtain ⟨n, hfinish⟩ := h.calls_finish hs
  refine ⟨n, fun fuels hmany hfuels => ?_⟩
  obtain ⟨os, e', hos, hfinished⟩ := hfinish fuels hfuels
  obtain ⟨more, k, rfl, hnodup, hmodels, hover⟩ := h.calls hos hfinished
  have hle := (List.subperm_of_subset hnodup hmodels).length_le
  have hlength := length_calls hos
  simp only [List.length_append, List.length_map, List.length_replicate, List.nil_append] at hlength hle
  obtain ⟨k, rfl⟩ := Nat.exists_eq_add_of_le' (show 1 ≤ k by omega)
  exact ⟨more, k, e', hos, perm_of_unsatisfiable hnodup hmodels (hover (by omega)).unsatisfiable⟩

/-- With enough steps for each search a count comes to its end. -/
theorem Enumerates.countFrom_finishes {limit : Nat} (h : Enumerates vars F ms e)
    (hs : e.solver.Steady) (count : Nat) :
    ∃ n, ∀ fuel, n ≤ fuel → ∃ tally e', Models.countFrom fuel limit count e = .ok (tally, e') ∧
      tally ≠ .unfinished := by
  induction limit generalizing ms e count with
  | zero => exact ⟨0, fun fuel _ => ⟨_, _, rfl, by simp⟩⟩
  | succ limit ih =>
    obtain ⟨n, o, e₁, he₁, hs₁, ⟨m, rfl, h₁⟩ | ⟨rfl, -⟩⟩ := h.next_finishes hs
    · obtain ⟨n', hrest⟩ := ih (h₁.note (n := .modelFound (count + 1)) (by simp))
        (hs₁.note (by simp)) (count + 1)
      refine ⟨max n n', fun fuel hfuel => ?_⟩
      obtain ⟨tally, e', he', hfinished⟩ := hrest fuel (Nat.le_trans (Nat.le_max_right n n') hfuel)
      have hnext := he₁ fuel (Nat.le_trans (Nat.le_max_left n n') hfuel)
      exact ⟨tally, e', bind_eq_ok_iff.2 ⟨_, hnext, he'⟩, hfinished⟩
    · exact ⟨n, fun fuel hfuel => ⟨_, _, bind_eq_ok_iff.2 ⟨_, he₁ fuel hfuel, rfl⟩, by simp⟩⟩

end Models

/-! ## Sessions -/

variable {s : Solver} {es : List Exchange}

/-- Without limits an enumeration gives every model once and no other item, then nothing any more, and
the count of the models is their number. A solver whose models were enumerated or counted answers that
there is no further one. With enough restart intervals nothing gets stuck, and without restarts some
number of steps for each search is enough to come to the end. -/
theorem Session.enumeration_exact (h : Session s es) (hunlimited : s.Unlimited) :
    (∀ fuels os e, Models.calls ⟨s, false⟩ fuels = .ok (os, e) → some .unfinished ∉ os →
      ∃ (ms : List (List Int)) (k : Nat),
        os = ms.map (some ∘ .model) ++ List.replicate k none ∧ ms.Nodup ∧
        (∀ m ∈ ms, m ∈ modelsOf s.numVars (formula es)) ∧
        (0 < k → ms.Perm (modelsOf s.numVars (formula es)) ∧
          ∀ fuel, ∃ s', e.solver.solve fuel [] = .ok (.unsatisfiable, s'))) ∧
    (∀ fuel tally s₁, Models.count s fuel = .ok (tally, s₁) → tally ≠ .unfinished →
      tally = .exact (modelsOf s.numVars (formula es)).length ∧
        ∀ fuel, ∃ s', s₁.solve fuel [] = .ok (.unsatisfiable, s')) ∧
    (∀ fuels, s.Supplied (fuels.map (· + 1)).sum →
      ∃ os e, Models.calls ⟨s, false⟩ fuels = .ok (os, e)) ∧
    (∀ fuel, s.Supplied ((2 ^ s.numVars + 1) * (fuel + 1)) →
      ∃ tally s₁, Models.count s fuel = .ok (tally, s₁)) ∧
    (s.restarts = .never →
      (∃ n, ∀ fuels, (modelsOf s.numVars (formula es)).length < fuels.length →
        (∀ fuel ∈ fuels, n ≤ fuel) →
        ∃ (ms : List (List Int)) (k : Nat) (e : Models), Models.calls ⟨s, false⟩ fuels =
          .ok (ms.map (some ∘ .model) ++ List.replicate (k + 1) none, e) ∧
          ms.Perm (modelsOf s.numVars (formula es))) ∧
      ∃ n, ∀ fuel, n ≤ fuel →
        ∃ s₁, Models.count s fuel = .ok (.exact (modelsOf s.numVars (formula es)).length, s₁)) := by
  obtain ⟨hstands, hvars⟩ := h.stands
  have hstart := Models.Enumerates.start (hstands.imp And.left And.left) (.of_lt hvars) hunlimited
  refine ⟨fun fuels os e hr hfinished => ?_, fun fuel tally s₁ hr hfinished => ?_,
    fun fuels hs => hstart.calls_of_supplied hs, fun fuel hs => ?_, fun hnever => ?_⟩
  · obtain ⟨ms, k, hos, hnodup, hmodels, hover⟩ := hstart.calls hr hfinished
    refine ⟨ms, k, hos, hnodup, hmodels, fun hk => ⟨?_, fun fuel => ?_⟩⟩
    · exact Models.perm_of_unsatisfiable hnodup hmodels (hover hk).unsatisfiable
    · exact Solver.solve_of_refuted (hover hk).refuted fuel []
  · obtain ⟨htally, G, hrefuted⟩ := hstart.count hr hfinished
    exact ⟨htally, fun fuel => Solver.solve_of_refuted hrefuted.refuted fuel []⟩
  · obtain ⟨tally, e, he⟩ := hstart.countFrom_succeeds hs 0
    exact ⟨tally, e.solver, bind_eq_ok_iff.2 ⟨_, he, rfl⟩⟩
  · obtain ⟨config, hreachable⟩ := h.reachable
    have hsteady : s.Steady := ⟨hreachable.standing.1, hreachable.standing.2, hnever⟩
    refine ⟨hstart.calls_exact hsteady, ?_⟩
    obtain ⟨n, hfinish⟩ := hstart.countFrom_finishes hsteady 0
    refine ⟨n, fun fuel hfuel => ?_⟩
    obtain ⟨tally, e, he, hfinished⟩ := hfinish fuel hfuel
    have hcount : Models.count s fuel = .ok (tally, e.solver) := bind_eq_ok_iff.2 ⟨_, he, rfl⟩
    obtain ⟨rfl, -⟩ := hstart.count hcount hfinished
    exact ⟨e.solver, hcount⟩

/-! ## Two models -/

/-- The first of two variables was made true. -/
def Trail.fixed : Trail := .ofMarks [none, some ⟨false, 0, none, 0⟩, none] [⟨⟨1⟩, false⟩] [] 1

/-- The second variable was decided on afterwards. -/
def Trail.guessed : Trail := .ofMarks [none, some ⟨false, 0, none, 0⟩, some ⟨false, 1, none, 1⟩]
  [⟨⟨1⟩, false⟩, ⟨⟨2⟩, false⟩] [1] 2

/-- The second variable was made false instead. -/
def Trail.excluded : Trail := .ofMarks [none, some ⟨false, 0, none, 0⟩, some ⟨true, 0, none, 1⟩]
  [⟨⟨1⟩, false⟩, ⟨⟨2⟩, true⟩] [] 2

/-- Two variables on a trail, which no constraint watches. -/
def Kernel.blank (store : Store) (trail : Trail) (propagations : Nat) : Kernel where
  trail := trail
  watches := ⟨⟨#[#[], #[], #[], #[], #[], #[]]⟩⟩
  store := store
  propagations := propagations

/-- A solver without constraints for two variables on a trail, which draws its decisions. -/
structure Solver.Draws (t : Trail) (o : Order.Uniform Generator) (s : Solver) : Prop
    extends Quiet s where
  undecided : s.refuted = false
  unlimited : s.Unlimited
  never : s.restarts = .never
  kernel : ∃ store propagations, store.entries = [] ∧ s.kernel = .blank store t propagations
  order : s.order = .uniform o

section
variable {s : Solver} {t : Trail} {o o₁ o₂ : Order.Uniform Generator}

theorem Solver.Draws.numVars (h : s.Draws t o) : s.numVars = t.vars := by
  obtain ⟨store, p, hentries, hkernel⟩ := h.kernel
  unfold Solver.numVars Solver.trail
  rw [hkernel]
  rfl

/-- The search decides on the second variable. -/
theorem Solver.Draws.solve_fixed (h : s.Draws .fixed o)
    (hpick : Order.select (.uniform o) .fixed = .ok (some ⟨⟨2⟩, false⟩, .uniform o₁))
    (hfull : Order.select (.uniform o₁) .guessed = .ok (none, .uniform o₂)) :
    ∃ s', s.solve 2 [] = .ok (.satisfiable, s') ∧ s'.model = some [1, 2] ∧
      s'.Draws (Trail.guessed.undoTo 0).1 o₂ := by
  obtain ⟨store, p, hentries, hkernel⟩ := h.kernel
  have hk : s.kernel.propagate = .ok (none, .blank store .fixed p) := by
    rw [hkernel]
    rfl
  have hstart : (s.atStart 0 .never).Quiet := ⟨h.learnts, h.certificate⟩
  obtain ⟨_, _, _, hs₁, h₁⟩ := hstart.step_of_pick (A := []) (b := .endless)
    (r := { interval := none }) rfl hk (fun _ => Or.inr hentries) rfl (h.order ▸ hpick) rfl
  obtain ⟨_, _, _, hs₂⟩ := h₁.step_of_full (A := []) (b := .endless) (r := { interval := none }) rfl
    (show Kernel.propagate _ = .ok (none, .blank store .guessed (p + 1)) from rfl)
    (fun hzero => absurd hzero Nat.one_ne_zero) rfl hfull
  have hrun : Solver.run .endless [] 2 { interval := none } (s.atStart 0 .never) =
      .ok (.satisfiable, _) := bind_eq_ok_iff.2 ⟨_, hs₁, bind_eq_ok_iff.2 ⟨_, hs₂, rfl⟩⟩
  have hls : s.literals [] = .ok [] := rfl
  obtain ⟨_, hs'⟩ :=
    Solver.solve_of_uniform h.undecided hls h.unlimited.budget_eq h.never hrun rfl
  exact ⟨_, hs', rfl, ⟨h.learnts, h.certificate⟩, h.undecided,
    ⟨h.unlimited.time, h.unlimited.conflicts⟩, rfl, ⟨store, _, hentries, rfl⟩, rfl⟩

/-- A literal is left of the clause that excludes the first model. -/
theorem Solver.Draws.addClause_fixed (h : s.Draws (Trail.guessed.undoTo 0).1 o) :
    ∃ s', s.addClause [-1, -2] = .ok (.ok (.unit ⟨⟨2⟩, true⟩), s') ∧ s'.Draws .excluded o := by
  obtain ⟨store, p, hentries, hkernel⟩ := h.kernel
  have hnum : s.numVars = Solver.numVars { s with kernel := .blank store .guessed p } := h.numVars
  have hls : s.literals [-1, -2] = .ok [⟨⟨1⟩, true⟩, ⟨⟨2⟩, true⟩] :=
    (Solver.literals_congr hnum).trans rfl
  obtain ⟨_, hs'⟩ := Solver.addClause_of_unit h.certificate h.undecided hls
    (by rw [Solver.trail, hkernel]; rfl) (by rw [Solver.trail, hkernel]; rfl)
    (show Kernel.propagate _ = .ok (none, .blank store .excluded (p + 1)) by rw [hkernel]; rfl)
  exact ⟨_, hs', ⟨h.learnts, h.certificate⟩, h.undecided,
    ⟨h.unlimited.time, h.unlimited.conflicts⟩, h.never, ⟨store, _, hentries, rfl⟩, h.order⟩

/-- Nothing is left of the clause that excludes the last model. -/
theorem Solver.Draws.solve_excluded (h : s.Draws .excluded o)
    (hfull : Order.select (.uniform o) .excluded = .ok (none, .uniform o₁)) :
    ∃ s₁ s₂, s.solve 1 [] = .ok (.satisfiable, s₁) ∧ s₁.model = some [1, -2] ∧
      s₁.addClause [-1, 2] = .ok (.error (.contradiction .emptyClause), s₂) := by
  obtain ⟨store, p, hentries, hkernel⟩ := h.kernel
  have hk : s.kernel.propagate = .ok (none, .blank store .excluded p) := by
    rw [hkernel]
    rfl
  obtain ⟨_, _, _, _, hs₁⟩ := h.solve_of_full h.undecided h.unlimited.budget_eq h.never hk
    (Or.inr hentries) (h.order ▸ hfull)
  exact ⟨_, _, hs₁, rfl, Solver.addClause_of_contradiction h.certificate h.undecided
    (show Solver.literals _ [-1, 2] = .ok [⟨⟨1⟩, true⟩, ⟨⟨2⟩, false⟩] from rfl) rfl⟩

end

/-- The history in which the first of two variables is made true. -/
def halfHistory : List Exchange :=
  [(.newVars 2, .done), (.addClause [1], .added (.ok (.unit ⟨⟨1⟩, false⟩)))]

theorem Session.exists_half : ∃ s, Session s halfHistory ∧
    s.Draws .fixed ⟨#[⟨1⟩, ⟨2⟩], .ofSeed 0⟩ := by
  have h₀ : Session _ [] := Session.create (show Solver.create Config.plain = .ok _ from rfl)
  have h₁ := h₀.call (c := .newVars 2) trivial rfl (by decide)
  have h₂ := h₁.call (c := .addClause [1]) trivial rfl (by decide)
  exact ⟨_, h₂, ⟨rfl, rfl⟩, rfl, ⟨rfl, rfl⟩, rfl, ⟨_, _, rfl, rfl⟩, rfl⟩

/-- What the order draws in the two searches. -/
theorem Order.exists_draws : ∃ o₁ o₂ o₃,
    select (.uniform ⟨#[⟨1⟩, ⟨2⟩], .ofSeed 0⟩) .fixed = .ok (some ⟨⟨2⟩, false⟩, .uniform o₁) ∧
    select (.uniform o₁) .guessed = .ok (none, .uniform o₂) ∧
    select (.uniform o₂) .excluded = .ok (none, .uniform o₃) := ⟨_, _, _, rfl, rfl, rfl⟩

/-- The first model is found with a decision, and a unit clause is left of the clause that excludes
it. Nothing is left of the clause that excludes the second one, so this was the last. -/
theorem Session.enumeration_exact_two_models : ∃ (s s₁ s₂ s₃ s₄ s₅ : Solver) (n : Nat),
    Session s halfHistory ∧ s.Unlimited ∧
    s.solve 2 [] = .ok (.satisfiable, s₁) ∧
    s₁.addClause [-1, -2] = .ok (.ok (.unit ⟨⟨2⟩, true⟩), s₂) ∧
    s₂.solve 1 [] = .ok (.satisfiable, s₃) ∧
    s₃.addClause [-1, 2] = .ok (.error (.contradiction .emptyClause), s₄) ∧
    Models.calls ⟨s, false⟩ [2, 1, 1] =
      .ok ([some (.model [1, 2]), some (.model [1, -2]), none], ⟨s₄, true⟩) ∧
    [[1, 2], [1, -2]].Perm (modelsOf s.numVars (formula halfHistory)) ∧
    s₄.solve 1 [] = .ok (.unsatisfiable, s₅) ∧
    ∀ fuel, n ≤ fuel → ∃ s', Models.count s fuel = .ok (.exact 2, s') := by
  obtain ⟨s, hs, hdraws⟩ := Session.exists_half
  obtain ⟨o₁, o₂, o₃, hpick, hfull, hlast⟩ := Order.exists_draws
  obtain ⟨s₁, hs₁, hm₁, hdraws₁⟩ := hdraws.solve_fixed hpick hfull
  obtain ⟨s₂, hs₂, hdraws₂⟩ := hdraws₁.addClause_fixed
  obtain ⟨s₃, s₄, hs₃, hm₃, hs₄⟩ := hdraws₂.solve_excluded hlast
  have hcalls : Models.calls ⟨s, false⟩ [2, 1, 1] =
      .ok ([some (.model [1, 2]), some (.model [1, -2]), none], ⟨s₄, true⟩) :=
    bind_eq_ok_iff.2 ⟨_, Models.next_of_model (e := ⟨s, false⟩) rfl hs₁ hm₁ hs₂, bind_eq_ok_iff.2
      ⟨_, bind_eq_ok_iff.2 ⟨_, Models.next_of_model (e := ⟨s₂, false⟩) rfl hs₃ hm₃ hs₄, rfl⟩, rfl⟩⟩
  obtain ⟨hexact, -, -, -, hfinish⟩ := hs.enumeration_exact hdraws.unlimited
  obtain ⟨ms, k, hos, -, -, hover⟩ := hexact _ _ _ hcalls (by simp)
  have hitems : [[1, 2], [1, -2]].map (some ∘ Models.Item.model) ++ List.replicate 1 none =
      ms.map (some ∘ Models.Item.model) ++ List.replicate k none := hos
  obtain ⟨rfl, rfl⟩ := Models.items_inj hitems
  obtain ⟨hperm, hunsat⟩ := hover Nat.one_pos
  obtain ⟨s₅, hs₅⟩ := hunsat 1
  obtain ⟨-, n, hcount⟩ := hfinish hdraws.never
  rw [← hperm.length_eq] at hcount
  exact ⟨s, s₁, s₂, s₃, s₄, s₅, n, hs, hdraws.unlimited, hs₁, hs₂, hs₃, hs₄, hcalls, hperm, hs₅,
    hcount⟩

end Cdcl
