import Cdcl.Proofs.Progress.Reachable
import Cdcl.Proofs.Resolution.Guarantees
import Cdcl.Proofs.Solver.Meaning

/-!
# The log agrees with the solver

The clauses that a checker computes when it visits a log ascend strictly (`Checker.Ordered`), so a
clause that has the literals of a stored constraint is the sorted list of these. Hence a replay of the
whole log of a reachable solver ends with exactly the clauses of the stored constraints and with the
unit of every literal that is fixed at level 0 (`Reachable.log_agrees`).
-/

namespace Cdcl
set_option autoImplicit false

namespace Literal

/-- Without repetitions sorting makes a list canonical. -/
theorem sort_eq_canonical {ls : List Literal} (h : ls.Nodup) : sort ls = canonical ls := by
  have hnodup : (sort ls).Nodup := (sort_perm ls).nodup_iff.2 h
  have hasc : Ascending (sort ls) :=
    ((pairwise_sort ls).and hnodup).imp fun ⟨hle, hne⟩ =>
      Nat.lt_of_le_of_ne hle fun hcode => hne (code_injective hcode)
  exact eq_of_ascending hasc (ascending_canonical ls) fun l => by
    rw [mem_canonical, (sort_perm ls).mem_iff]

end Literal

namespace Checker

variable {k k' : Checker} {id : ClauseId} {ls c r : List Literal} {e : Event} {es : List Event}
  {steps : List ResolutionStep} {next : ClauseId}

/-- Visits records until one is rejected. -/
def visitAll (k : Checker) : List Event → Except Fault (Except ResolutionError Unit × Checker)
  | [] => .ok (.ok (), k)
  | e :: es => do
    match ← k.visit e with
    | (.error reason, k) => .ok (.error reason, k)
    | (.ok (), k) => k.visitAll es

theorem visitAll_eq_ok_iff : k.visitAll es = .ok (.ok (), k') ↔ k.Visits es k' := by
  induction es generalizing k with
  | nil => exact ⟨fun h => (Prod.mk.inj (Except.ok.inj h)).2.symm, fun h => by rw [h]; rfl⟩
  | cons e es ih =>
    constructor
    · intro h
      obtain ⟨⟨x, k₁⟩, hx, h⟩ := bind_eq_ok_iff.1 h
      cases x with
      | error reason => exact absurd h (by simp)
      | ok => exact ⟨k₁, hx, ih.1 h⟩
    · rintro ⟨k₁, hk₁, h⟩
      exact bind_eq_ok_iff.2 ⟨_, hk₁, ih.2 h⟩

theorem Ordered.visits (h : k.Ordered) (hfit : Event.FitFrom next es) (hv : k.Visits es k') :
    k'.Ordered := by
  induction es generalizing k next with
  | nil =>
    obtain rfl : k' = k := hv
    exact h
  | cons e es ih =>
    obtain ⟨k₁, hk₁, hv⟩ := hv
    refine ih (h.visit (fun i ls he => ?_) hk₁) hfit.2 hv
    subst he
    exact hfit.1.2.1

/-- In order, a clause of these literals is their canonical list. -/
theorem Ordered.clause_eq (h : k.Ordered) (hs : k.Shows id ls) :
    k.clause id = .ok (Literal.canonical ls) := by
  obtain ⟨c, hc, hmem⟩ := hs
  rw [hc, ← Literal.canonical_eq_self (h id c hc), Literal.canonical_congr hmem]

end Checker

/-- A checker has the clause of every stored constraint, and of every literal that is fixed at
level 0 it has the unit clause or else the literal has a reason. -/
structure Certificate.Agrees (c : Certificate) (t : Trail) (s : Store) (q : Checker) : Prop where
  stored : ∀ ref e, s.get? ref = some e → ∃ id, e.clauseId = some id ∧
    q.clause id = .ok e.constraint.sorted
  units : ∀ l ∈ t.literals.toList, t.levelOf l.var = 0 → ∀ id, c.units.getD l.var none = some id →
    q.clause id = .ok [l]
  forced : ∀ l ∈ t.literals.toList, t.levelOf l.var = 0 → c.units.getD l.var none = none →
    ∃ ref e, t.reasonOf l.var = some ref ∧ s.get? ref = some e

variable {config : Config} {s : Solver} {c : Certificate}

/-- The log of a reachable solver is read back and accepted as a whole, and what the checker then
has are the stored constraints and the fixed literals. Between calls no literal waits for its unit. -/
theorem Reachable.log_agrees (h : Reachable config s) (hc : s.certificate = some c)
    (hids : c.log.nextId < Event.distanceLimit) :
    ∃ es q, c.log.events = .ok es ∧ Checker.visitAll ⟨#[]⟩ es = .ok (.ok (), q) ∧
      c.Agrees s.trail s.store q ∧
      ∀ l ∈ s.trail.literals.toList, s.trail.levelOf l.var = 0 ∧
        ∃ id, c.units.getD l.var none = some id := by
  have hdoc := h.documented
  obtain ⟨⟨es, q, hback⟩, hcomplete⟩ := hdoc.certified c hc
  obtain ⟨hrecords, hvisits⟩ := hback.accepted
  have hvalid : s.trail.Valid := hdoc.firm.sound.trail
  have hordered : q.Ordered := Checker.ordered_empty.visits hrecords.fits hvisits
  have hevents : c.log.events = .ok es := by
    unfold Log.events
    rw [hrecords.decode_eq hids]
  have hknown : ∀ l ∈ s.trail.literals.toList, s.trail.levelOf l.var = 0 ∧
      ∃ id, c.units.getD l.var none = some id := by
    intro l hl
    obtain ⟨m, hm⟩ := Trail.exists_mark (hvalid.holds_iff_mem.2 hl)
    have hzero : m.level = 0 := Nat.le_zero.1 (hdoc.level ▸ hvalid.level_le hm)
    exact ⟨(Trail.levelOf_eq hm).trans hzero, hcomplete.known l.var m hm hzero⟩
  refine ⟨es, q, hevents, Checker.visitAll_eq_ok_iff.2 hvisits, ⟨?_, ?_, ?_⟩, hknown⟩
  · intro ref e he
    obtain ⟨-, id, hid, hshows⟩ := hback.stored ref e he
    refine ⟨id, hid, ?_⟩
    rw [hordered.clause_eq hshows, Constraint.sorted,
      Literal.sort_eq_canonical (hdoc.firm.sound.shape he).nodup]
  · intro l hl _ id hid
    obtain ⟨negative, hunit, -, hshows⟩ := hback.units l.var id hid
    rw [hvalid.eq_of_holds hunit (hvalid.holds_iff_mem.2 hl) rfl] at hshows
    exact hordered.clause_eq hshows
  · intro l hl _ hnone
    obtain ⟨-, id, hid⟩ := hknown l hl
    exact absurd (hnone.symm.trans hid) (by simp)

/-- A solver that has stored what is left of a clause. -/
theorem Reachable.exists_shortened : ∃ s c,
    Reachable { Config.plain with certificate := true } s ∧ s.certificate = some c ∧
    c.log.nextId = 3 ∧ s.trail.literals = #[⟨⟨1⟩, true⟩] ∧ c.units.getD ⟨1⟩ none = some 0 ∧
    s.store.get? ⟨0⟩ = some ⟨.binary ⟨⟨2⟩, false⟩ ⟨⟨3⟩, false⟩, 0.0, false, some 2⟩ := by
  have h₀ : Reachable { Config.plain with certificate := true } _ := .create
    (show Solver.create { Config.plain with certificate := true } = .ok _ from rfl)
  have h₁ := h₀.call (c := .newVars 3) trivial rfl (by decide)
  have h₂ := h₁.call (c := .addClause [-1]) trivial rfl (by decide)
  have h₃ := h₂.call (c := .addClause [1, 2, 3]) trivial
    (Solver.perform_addClause_of_new rfl rfl rfl rfl (Std.HashMap.getElem?_empty ..) rfl rfl)
    (by decide)
  exact ⟨_, _, h₃, rfl, rfl, rfl, rfl, rfl⟩

/-- The replay gives the literal and the clause that is left. -/
theorem Reachable.log_agrees_shortened : ∃ s c es q,
    Reachable { Config.plain with certificate := true } s ∧ s.certificate = some c ∧
    c.log.nextId < Event.distanceLimit ∧ c.log.events = .ok es ∧
    Checker.visitAll ⟨#[]⟩ es = .ok (.ok (), q) ∧ q.clause 0 = .ok [⟨⟨1⟩, true⟩] ∧
    q.clause 2 = .ok [⟨⟨2⟩, false⟩, ⟨⟨3⟩, false⟩] := by
  obtain ⟨s, c, hs, hc, hnext, htrail, hunit, hstored⟩ := Reachable.exists_shortened
  have hids : c.log.nextId < Event.distanceLimit := hnext ▸ (by decide)
  obtain ⟨es, q, hes, hq, hagrees, hknown⟩ := Reachable.log_agrees hs hc hids
  obtain ⟨id, hid, hclause⟩ := hagrees.stored ⟨0⟩ _ hstored
  obtain rfl : 2 = id := Option.some.inj hid
  have hl : (⟨⟨1⟩, true⟩ : Literal) ∈ s.trail.literals.toList := by
    rw [htrail]
    exact List.mem_cons_self
  exact ⟨s, c, es, q, hs, hc, hids, hes, hq,
    hagrees.units _ hl (hknown _ hl).1 0 hunit, hclause⟩

end Cdcl
