import Cdcl.Proofs.Kernel.Invariant
import Cdcl.Proofs.Trail.Meaning

/-!
# What a kernel means for assignments

An assignment that satisfies the stored constraints and makes the literals without a reason true
makes all literals of the trail true (`Sound.makes`). If propagation is complete and every variable
is assigned, then the assignment of the trail satisfies every stored constraint (`Ready.holds`).
-/

namespace Cdcl.Kernel
set_option autoImplicit false

variable {k : Kernel} {a : Assignment} {l : Literal} {ref : ClauseRef} {e : Stored} {n : Nat}

/-- The assignment satisfies every stored constraint. -/
def Satisfied (s : Store) (a : Assignment) : Prop :=
  ∀ ref e, s.get? ref = some e → e.constraint.demand.Holds a

theorem Satisfied.of_alike {s s' : Store} (h : Satisfied s a) (hs : s.Alike s') :
    Satisfied s' a := by
  intro ref e he
  obtain ⟨e', he', hf⟩ := hs.symm.get? he
  exact (Constraint.holds_of_key_eq (congrArg Prod.fst hf) a).1 (h ref e' he')

/-- Up to a level, the literals of the trail follow from the stored constraints and from those
literals that have no reason. -/
theorem Sound.makes (h : k.Sound) (hs : Satisfied k.store a)
    (hfree : ∀ v m, k.trail.mark? v = some m → m.level ≤ n → m.reason = none →
      a.makes ⟨v, m.negative⟩ = true) :
    ∀ v m, k.trail.mark? v = some m → m.level ≤ n → a.makes ⟨v, m.negative⟩ = true := by
  -- by induction on the place: a reason forces its literal because of earlier ones
  suffices hall : ∀ p v m, k.trail.mark? v = some m → m.position = p → m.level ≤ n →
      a.makes ⟨v, m.negative⟩ = true from fun v m hm => hall m.position v m hm rfl
  intro p
  induction p using Nat.strongRecOn with
  | ind p ih =>
    intro v m hm hp hlev
    cases hr : m.reason with
    | none => exact hfree v m hm hlev hr
    | some ref =>
      obtain ⟨e, he, hforces⟩ := h.reasons hm hr
      refine hforces.makes h.trail (Trail.holds_mk hm) (hs ref e he) fun k' _ hk' => ?_
      obtain ⟨i, hi, hneg, hlt⟩ := (Constraint.falseBefore_iff h.trail).1 hk'
      change i.position < k.trail.place v at hlt
      rw [Trail.place_eq hm] at hlt
      have hle := h.trail.level_mono hi hm (Nat.le_of_lt hlt)
      have hmake := ih i.position (hp ▸ hlt) _ i hi rfl (Nat.le_trans hle hlev)
      have hkn : (-k' : Literal) = ⟨k'.var, i.negative⟩ := by
        have : i.negative = !k'.negative := by
          cases hi' : i.negative <;> cases hk : k'.negative <;> simp_all
        rw [this]
        rfl
      rw [hkn]
      exact hmake

/-- All literals at level 0 follow from the stored constraints and from those literals at level 0
that have no reason. -/
theorem Sound.respectsRoot (h : k.Sound) (hs : Satisfied k.store a)
    (hfree : ∀ v m, k.trail.mark? v = some m → m.level = 0 → m.reason = none →
      a.makes ⟨v, m.negative⟩ = true) : a.RespectsRoot k.trail := by
  intro l hl hlev
  obtain ⟨m, hm, hneg⟩ := h.trail.holds_iff.1 hl
  rw [Trail.levelOf_eq hm] at hlev
  have := h.makes hs (n := 0) (fun v m hm hlev => hfree v m hm (Nat.le_zero.1 hlev)) _ m hm
    (Nat.le_of_eq hlev)
  rw [hneg] at this
  exact this

/-- No assignment that respects the trail satisfies a violated constraint. -/
theorem Clash.not_satisfied (h : k.Clash ref) (ha : a.Respects k.trail) :
    ¬ Satisfied k.store a := by
  intro hs
  obtain ⟨e, he, hviolated, -⟩ := h.violated
  exact hviolated.not_holds (fun l _ hl => ha _ hl) (hs ref e he)

/-- When propagation is complete, enough watched literals hold if all of them are assigned. -/
theorem Ready.degree_le (h : k.Ready) (hhead : k.trail.head = k.trail.literals.size)
    (he : k.store.get? ref = some e)
    (hassigned : ∀ l ∈ e.constraint.watching, k.trail.mark? l.var ≠ none) :
    e.constraint.degree ≤ e.constraint.watching.countP k.trail.holds := by
  have hlen := (h.sound.shape he).length_watching
  by_cases hall : ∀ l ∈ e.constraint.watching, k.trail.holds l = true
  · rw [List.countP_eq_length.2 hall]
    omega
  · simp only [not_forall] at hall
    obtain ⟨w, hw, hwt⟩ := hall
    obtain ⟨m, hm⟩ := Option.ne_none_iff_exists'.1 (hassigned w hw)
    have hneg : m.negative ≠ w.negative := fun heq => hwt (Trail.holds_of_mark hm heq)
    have hpassed : Passed k.trail (k.trail.level + 1) m :=
      ⟨hhead ▸ h.sound.trail.position_lt hm, Nat.lt_succ_of_le (h.sound.trail.level_le hm)⟩
    have htrue : ∀ u ∈ e.constraint.watching.erase w, k.trail.holds u = true := by
      intro u hu
      obtain ⟨hne, hu⟩ := (h.sound.shape he).nodup_watching.mem_erase_iff.1 hu
      exact (h.stable ref e he w hw m hm hneg hpassed u hu hne).1
    rw [(List.perm_cons_erase hw).countP_eq, List.countP_cons, List.countP_eq_length.2 htrue,
      List.length_erase_of_mem hw]
    omega

/-- When propagation is complete and every variable of a constraint is assigned, the constraint
holds under every assignment that respects the trail. -/
theorem Ready.holds (h : k.Ready) (hhead : k.trail.head = k.trail.literals.size)
    (he : k.store.get? ref = some e)
    (hassigned : ∀ l ∈ e.constraint.watching, k.trail.mark? l.var ≠ none)
    (ha : a.Respects k.trail) : e.constraint.demand.Holds a := by
  have hle := h.degree_le hhead he hassigned
  have hmono : e.constraint.watching.countP k.trail.holds ≤ e.constraint.watching.countP a.makes :=
    List.countP_mono_left fun l _ hl => ha l hl
  unfold Demand.Holds Constraint.demand Assignment.count
  simp only
  rw [Constraint.literals_eq, List.countP_append]
  omega

end Cdcl.Kernel
