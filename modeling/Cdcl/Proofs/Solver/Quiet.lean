import Cdcl.Proofs.Solver.Searching

/-!
# Searches that learn nothing

A solver is `Quiet` as long as no clause was learnt and no certificate is kept. Then a round that meets
no conflict does what it chooses: it opens a level with an assumption (`Quiet.step_of_assumption`) or
with the literal that the order picks (`Quiet.step_of_pick`), it finds a model (`Quiet.step_of_full`), or
it fails because of an assumption (`Quiet.step_of_failing`). Apart from statistics and the journal
nothing else changes. A random order keeps nothing of what a search takes back (`solve_of_uniform`).
-/

namespace Cdcl
set_option autoImplicit false

namespace Order

theorem undoAll_uniform (o : Uniform Generator) (ls : List Literal) :
    undoAll (.uniform o) ls = .ok (.uniform o) := by
  induction ls with
  | nil => rfl
  | cons l ls ih => exact ih

end Order

namespace Solver

/-- No clause was learnt, and no certificate is kept. -/
structure Quiet (s : Solver) : Prop where
  learnts : s.learnts = []
  certificate : s.certificate = none

/-- A solver after some rounds that learnt nothing. -/
def moved (s : Solver) (kernel : Kernel) (order : Order) (stats : Statistics)
    (journal : Array Notice) (simplified : Nat) : Solver :=
  { s with kernel, order, stats, journal, simplified }

variable {s s' : Solver} {A : List Literal} {b : Budget} {r : Round} {k : Kernel} {l : Literal}
  {o : Order} {t : Trail} {raws : List Int} {v : Verdict} {fuel : Nat}

/-! ## Choices -/

theorem choose_of_assumption (hl : A[s.trail.level]? = some l)
    (hsat : s.trail.isSatisfied l = .ok false) (hfals : s.trail.isFalsified l = .ok false)
    (ht : s.trail.decide l = .ok t) : ∃ journal, choose A r s =
      .ok (.goOn r, { s with kernel := { s.kernel with trail := t }, journal }) := by
  unfold choose
  rw [hl]
  exact ⟨_, bind_eq_ok_iff.2 ⟨false, hsat, bind_eq_ok_iff.2 ⟨false, hfals,
    bind_eq_ok_iff.2 ⟨t, ht, rfl⟩⟩⟩⟩

theorem choose_of_failing (hl : A[s.trail.level]? = some l)
    (hsat : s.trail.isSatisfied l = .ok false) (hfals : s.trail.isFalsified l = .ok true) :
    choose A r s = .ok (.finish .unsatisfiable, s.note (.assumptionFails l)) := by
  unfold choose
  rw [hl]
  exact bind_eq_ok_iff.2 ⟨false, hsat, bind_eq_ok_iff.2 ⟨true, hfals, rfl⟩⟩

theorem choose_of_pick (hl : A[s.trail.level]? = none)
    (hpick : s.order.select s.trail = .ok (some l, o)) (ht : s.trail.decide l = .ok t) :
    ∃ stats journal, choose A r s = .ok (.goOn r,
      { s with kernel := { s.kernel with trail := t }, order := o, stats, journal }) := by
  unfold choose
  rw [hl]
  exact ⟨_, _, bind_eq_ok_iff.2 ⟨_, hpick, bind_eq_ok_iff.2 ⟨t, ht, rfl⟩⟩⟩

theorem choose_of_full (hl : A[s.trail.level]? = none)
    (hpick : s.order.select s.trail = .ok (none, o)) : choose A r s =
      .ok (.finish .satisfiable, { s with order := o, model := some s.trail.model }) := by
  unfold choose
  rw [hl]
  exact bind_eq_ok_iff.2 ⟨_, hpick, rfl⟩

/-! ## Rounds -/

theorem Quiet.moved {stats : Statistics} {journal : Array Notice} {simplified : Nat} (h : s.Quiet) :
    (s.moved k o stats journal simplified).Quiet := ⟨h.learnts, h.certificate⟩

theorem Quiet.recordRoot (h : s.Quiet) : s.recordRoot = .ok s := certify_of_none h.certificate _

theorem Quiet.settle_of_simplified (h : s.Quiet)
    (hroot : s.trail.level = 0 → s.trail.literals.size = s.simplified) : s.settle = .ok s := by
  unfold Solver.settle
  split
  · next hzero =>
    rw [h.recordRoot]
    exact if_pos (hroot hzero)
  · rfl

/-- Where nothing is stored or nothing new is fixed, nothing is removed. -/
theorem Quiet.settle (h : s.Quiet)
    (hroot : s.trail.level = 0 → s.trail.literals.size = s.simplified ∨ s.store.entries = []) :
    ∃ simplified journal, s.settle = .ok { s with simplified, journal } := by
  by_cases hsame : s.trail.level = 0 → s.trail.literals.size = s.simplified
  · exact ⟨s.simplified, s.journal, h.settle_of_simplified hsame⟩
  · obtain ⟨hzero, hne⟩ := Classical.not_imp.1 hsame
    refine ⟨s.trail.literals.size, s.journal.push (.simplified 0), ?_⟩
    unfold Solver.settle
    rw [if_pos hzero, h.recordRoot]
    change s.simplify = _
    unfold Solver.simplify
    rw [if_neg hne, (hroot hzero).resolve_left hne]
    change Except.ok (note { s with
      learnts := s.learnts.filter s.store.contains
      simplified := s.trail.literals.size } (.simplified 0)) = _
    rw [h.learnts, List.filter_nil, ← h.learnts]
    rfl

theorem Quiet.arrives (h : s.Quiet) (hover : r.isOver = false)
    (hk : s.kernel.propagate = .ok (none, k))
    (hroot : k.trail.level = 0 → k.trail.literals.size = s.simplified ∨ k.store.entries = []) :
    ∃ stats journal simplified, Arrives r s (s.moved k s.order stats journal simplified) := by
  have hs₁ : s.propagate = .ok (none, s.setKernel k) := bind_eq_ok_iff.2 ⟨_, hk, rfl⟩
  obtain ⟨simplified, _, hs₂⟩ :=
    Quiet.settle (s := s.setKernel k) ⟨h.learnts, h.certificate⟩ hroot
  obtain ⟨stats, journal, harrives⟩ := arrives_of_nil hs₁ hs₂ hover h.learnts
  exact ⟨stats, journal, simplified, harrives⟩

section
variable (h : s.Quiet) (hover : r.isOver = false) (hk : s.kernel.propagate = .ok (none, k))
  (hroot : k.trail.level = 0 → k.trail.literals.size = s.simplified ∨ k.store.entries = [])
include h hover hk hroot

theorem Quiet.step_of_assumption (hl : A[k.trail.level]? = some l)
    (hsat : k.trail.isSatisfied l = .ok false) (hfals : k.trail.isFalsified l = .ok false)
    (ht : k.trail.decide l = .ok t) : ∃ stats journal simplified,
      step b A r s =
        .ok (.goOn r, s.moved { k with trail := t } s.order stats journal simplified) ∧
      (s.moved { k with trail := t } s.order stats journal simplified).Quiet := by
  obtain ⟨stats, journal, simplified, harrives⟩ := h.arrives hover hk hroot
  obtain ⟨journal', hchoose⟩ := choose_of_assumption (r := r)
    (s := s.moved k s.order stats journal simplified) hl hsat hfals ht
  exact ⟨stats, journal', simplified, harrives.step_eq.trans hchoose, h.moved⟩

theorem Quiet.step_of_failing (hl : A[k.trail.level]? = some l)
    (hsat : k.trail.isSatisfied l = .ok false) (hfals : k.trail.isFalsified l = .ok true) :
    ∃ stats journal simplified, step b A r s =
      .ok (.finish .unsatisfiable, s.moved k s.order stats journal simplified) := by
  obtain ⟨stats, journal, simplified, harrives⟩ := h.arrives hover hk hroot
  exact ⟨stats, _, simplified, harrives.step_eq.trans (choose_of_failing hl hsat hfals)⟩

theorem Quiet.step_of_pick (hl : A[k.trail.level]? = none)
    (hpick : s.order.select k.trail = .ok (some l, o)) (ht : k.trail.decide l = .ok t) :
    ∃ stats journal simplified,
      step b A r s = .ok (.goOn r, s.moved { k with trail := t } o stats journal simplified) ∧
      (s.moved { k with trail := t } o stats journal simplified).Quiet := by
  obtain ⟨stats, journal, simplified, harrives⟩ := h.arrives hover hk hroot
  obtain ⟨stats', journal', hchoose⟩ := choose_of_pick (r := r)
    (s := s.moved k s.order stats journal simplified) hl hpick ht
  exact ⟨stats', journal', simplified, harrives.step_eq.trans hchoose, h.moved⟩

theorem Quiet.step_of_full (hl : A[k.trail.level]? = none)
    (hpick : s.order.select k.trail = .ok (none, o)) :
    ∃ stats journal simplified, step b A r s = .ok (.finish .satisfiable,
      { s.moved k o stats journal simplified with model := some k.trail.model }) := by
  obtain ⟨stats, journal, simplified, harrives⟩ := h.arrives hover hk hroot
  exact ⟨stats, journal, simplified, harrives.step_eq.trans (choose_of_full hl hpick)⟩

end

/-! ## Whole searches -/

theorem backtrack_of_uniform {o : Order.Uniform Generator} (h : s.order = .uniform o) (level : Nat) :
    s.backtrack level =
      .ok { s with kernel := { s.kernel with trail := (s.trail.undoTo level).1 } } := by
  have hundo : s.order.undoAll (s.trail.undoTo level).2 = .ok s.order := by
    rw [h, Order.undoAll_uniform]
  exact bind_eq_ok_iff.2 ⟨_, hundo, rfl⟩

theorem solve_of_uniform {o : Order.Uniform Generator} (hopen : s.refuted = false)
    (hls : s.literals raws = .ok A) (hb : s.budget = .ok b) (hnever : s.restarts = .never)
    (hs' : run b A fuel { interval := none } (s.atStart A.length .never) = .ok (v, s'))
    (ho : s'.order = .uniform o) : ∃ journal, s.solve fuel raws = .ok (v,
      { s' with kernel := { s'.kernel with trail := (s'.trail.undoTo 0).1 }, journal }) := by
  have hnext : s.restarts.next = .ok (none, .never) := by
    rw [hnever]
    rfl
  exact ⟨_, solve_of_run hopen hls hb hnext hs' (backtrack_of_uniform ho 0)⟩

/-- Once every variable is assigned at level 0, a search finds the model of the trail. -/
theorem Quiet.solve_of_full {o : Order.Uniform Generator} (h : s.Quiet) (hopen : s.refuted = false)
    (hb : s.budget = .ok b) (hnever : s.restarts = .never)
    (hk : s.kernel.propagate = .ok (none, k))
    (hroot : k.trail.literals.size = s.simplified ∨ k.store.entries = [])
    (hpick : s.order.select k.trail = .ok (none, .uniform o)) :
    ∃ stats journal simplified maxLearnts, s.solve 1 [] = .ok (.satisfiable, { s with
      kernel := { k with trail := (k.trail.undoTo 0).1 }, order := .uniform o,
      restarts := .never, model := some k.trail.model, stats, journal, simplified, maxLearnts }) := by
  obtain ⟨stats, journal, simplified, hstep⟩ := Quiet.step_of_full (s := s.atStart 0 .never)
    (A := []) (b := b) (r := { interval := none }) ⟨h.learnts, h.certificate⟩ rfl hk
    (fun _ => hroot) rfl hpick
  have hls : s.literals [] = .ok [] := rfl
  have hrun : run b [] 1 { interval := none } (s.atStart 0 .never) = .ok (.satisfiable, _) :=
    bind_eq_ok_iff.2 ⟨_, hstep, rfl⟩
  obtain ⟨journal', hsolve⟩ := solve_of_uniform hopen hls hb hnever hrun rfl
  exact ⟨stats, journal', simplified, _, hsolve⟩

end Solver
end Cdcl
