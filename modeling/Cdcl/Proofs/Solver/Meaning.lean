import Cdcl.Proofs.Solver.Guarantees

/-!
# What a stored state means

Between two calls the stored constraints of the formula and the literals fixed at level 0 hold under
exactly those assignments under which everything holds that was ever added, and what was learnt follows
from it (`Session.state_represents_formula`).
-/

namespace Cdcl
set_option autoImplicit false

variable {s : Solver} {F : Formula} {es : List Exchange} {raws : List Int}

theorem Solver.Idle.respectsRoot_iff (h : s.Idle F) (a : Assignment) :
    a.RespectsRoot s.trail ↔ ∀ l ∈ s.trail.root.toList, a.makes l = true := by
  have hvalid := h.ready.sound.trail
  rw [Trail.root_of_level_zero h.level]
  constructor
  · intro ha l hl
    have hlevel : s.trail.levelOf l.var ≤ s.trail.level := hvalid.levelOf_le l.var
    exact ha l (hvalid.holds_iff_mem.2 hl) (Nat.le_zero.1 (h.level ▸ hlevel))
  · exact fun ha l hl _ => ha l (hvalid.holds_iff_mem.1 hl)

/-- As long as a solver is not refuted, its stored constraints of the formula and the literals at level
0 have the models of everything that was ever added, what was learnt holds in all of them, and no
other literal is left on the trail. -/
theorem Session.state_represents_formula (h : Session s es) (hopen : s.refuted = false) :
    (∀ a : Assignment,
      ((∀ ref e, s.store.get? ref = some e → e.learnt = false → e.constraint.demand.Holds a) ∧
        ∀ l ∈ s.trail.root.toList, a.makes l = true) ↔ (formula es).Holds a) ∧
    (∀ ref e, s.store.get? ref = some e → e.learnt = true →
      ∀ a : Assignment, (formula es).Holds a → e.constraint.demand.Holds a) ∧
    ∀ l ∈ s.trail.literals.toList, l ∈ s.trail.root.toList ∧
      ∀ a : Assignment, (formula es).Holds a → a.makes l = true := by
  obtain ⟨⟨hidle, -⟩ | ⟨hrefuted, -⟩, -⟩ := h.stands
  · have hrep := hidle.keeps.represents
    refine ⟨fun a => ?_, fun ref e he _ a ha => hrep.satisfied a ha ref e he, fun l hl => ?_⟩
    · rw [hrep.meets a, ← hidle.respectsRoot_iff]
      exact ⟨fun hm => ⟨hm.1, hm.2⟩, fun hm => ⟨hm.given, hm.root⟩⟩
    · have hroot : l ∈ s.trail.root.toList := by
        rwa [Trail.root_of_level_zero hidle.level]
      refine ⟨hroot, fun a ha => ?_⟩
      exact (hidle.respectsRoot_iff a).1 ((hrep.meets a).1 ha).root l hroot
  · exact absurd hrefuted.refuted (by simp [hopen])

/-! ## A session with a stored clause -/

/-- The history in which one of two variables has to be true, and then the first is made false. -/
def forcedHistory : List Exchange :=
  [(.newVars 2, .done), (.addClause [1, 2], .added (.ok (.stored ⟨0⟩))),
    (.addClause [-1], .added (.ok (.unit ⟨⟨1⟩, true⟩)))]

/-- A session in which a stored clause has forced a variable. -/
theorem Session.exists_forced : ∃ s, Session s forcedHistory ∧ s.refuted = false ∧
    s.trail.literals = #[⟨⟨1⟩, true⟩, ⟨⟨2⟩, false⟩] ∧
    s.store.get? ⟨0⟩ = some ⟨.binary ⟨⟨1⟩, false⟩ ⟨⟨2⟩, false⟩, 0.0, false, none⟩ := by
  have h₀ : Session _ [] := Session.create (show Solver.create Config.plain = .ok _ from rfl)
  have h₁ := h₀.call (c := .newVars 2) trivial rfl (by decide)
  have h₂ := h₁.call (c := .addClause [1, 2]) trivial
    (Solver.perform_addClause_of_empty rfl rfl rfl rfl rfl rfl rfl) (by decide)
  have h₃ := h₂.call (c := .addClause [-1]) trivial rfl (by decide)
  exact ⟨_, h₃, rfl, rfl, rfl⟩

/-- The stored clause and the two literals on the trail have the models of what was added, and the
second variable is true in all of them. -/
theorem Session.state_represents_formula_forced : ∃ s, Session s forcedHistory ∧
    s.refuted = false ∧
    (∀ a : Assignment,
      ((∀ ref e, s.store.get? ref = some e → e.learnt = false → e.constraint.demand.Holds a) ∧
        ∀ l ∈ s.trail.root.toList, a.makes l = true) ↔ (formula forcedHistory).Holds a) ∧
    (∃ ref e, s.store.get? ref = some e) ∧
    ∀ a : Assignment, (formula forcedHistory).Holds a → a.makes ⟨⟨2⟩, false⟩ = true := by
  obtain ⟨s, hs, hopen, htrail, hstored⟩ := Session.exists_forced
  have hmeaning := Session.state_represents_formula hs hopen
  refine ⟨s, hs, hopen, hmeaning.1, ⟨_, _, hstored⟩, (hmeaning.2.2 ⟨⟨2⟩, false⟩ ?_).2⟩
  rw [htrail]
  simp

end Cdcl
