import Cdcl.Proofs.Progress.Reading
import Cdcl.Proofs.Trail.Levels

/-!
# What a trail tells, and taking it back

`Trail.Coherent` says how what can be read off a trail fits together: truth, places, levels, limits
and the queue. Every valid trail is coherent (`Valid.coherent`). `Trail.StandsOn t₀ t` says that `t`
was built on top of `t₀`, in levels above that of `t₀`. It holds once a level is opened, whatever
happens to the levels above keeps it, and taking these levels back gives the assignment of `t₀`
(`StandsOn.undoTo`).
-/

namespace Cdcl.Trail
set_option autoImplicit false

/-- What can be read off a trail fits together. -/
structure Coherent (t : Trail) : Prop where
  consistent : ∀ l, t.holds l = true → t.holds (-l) = false
  truth : ∀ l, t.holds l = true ↔ l ∈ t.literals.toList
  distinct : (t.literals.toList.map Literal.var).Nodup
  places : ∀ (i : Nat) l, t.literals[i]? = some l → t.positionOf l.var = .ok i
  levels : ∀ (i : Nat) l, t.literals[i]? = some l →
    t.levelOf l.var = t.limits.toList.countP (· ≤ i)
  ascending : ∀ (i j : Nat) l k, t.literals[i]? = some l → t.literals[j]? = some k → i ≤ j →
    t.levelOf l.var ≤ t.levelOf k.var
  unassigned : ∀ v, v ∉ t.literals.toList.map Literal.var →
    t.levelOf v = 0 ∧ t.reasonOf v = none
  limits : t.limits.toList.Pairwise (· ≤ ·)
  limited : ∀ n ∈ t.limits.toList, n ≤ t.literals.size
  head : t.head ≤ t.literals.size

/-- The same literals are on the trails, in the same levels and for the same reasons. -/
structure SameAssignment (t t' : Trail) : Prop where
  literals : t'.literals = t.literals
  limits : t'.limits = t.limits
  truth : ∀ l, t'.holds l = t.holds l
  levels : ∀ v, t'.levelOf v = t.levelOf v
  reasons : ∀ v, t'.reasonOf v = t.reasonOf v

/-- The second trail has the first one below its levels above that of the first. -/
structure StandsOn (t₀ t : Trail) : Prop where
  limits : ∀ i < t₀.level, t.limits[i]? = t₀.limits[i]?
  cut : t.limits[t₀.level]? = some t₀.literals.size
  marks : ∀ v m, t₀.mark? v = some m ↔ t.mark? v = some m ∧ m.level ≤ t₀.level
  head : t₀.head ≤ t.head

variable {t t' t₀ : Trail} {l : Literal} {v : Var} {m : Mark} {n : Nat} {r : Option ClauseRef}

theorem Valid.mark?_eq_none (h : t.Valid) (hv : v ∉ t.literals.toList.map Literal.var) :
    t.mark? v = none := by
  refine Option.eq_none_iff_forall_ne_some.2 fun m hm => hv ?_
  exact List.mem_map.2 ⟨_, h.holds_iff_mem.1 (holds_mk hm), rfl⟩

theorem Valid.coherent (h : t.Valid) (hvars : t.vars < Var.signedLimit) : t.Coherent where
  consistent := fun _ => h.consistent
  truth := fun _ => h.holds_iff_mem
  distinct := h.nodup_vars
  places := by
    intro i l hi
    obtain ⟨m, hm, -, hpos⟩ := h.marked hi
    rw [h.positionOf hvars hm, hpos]
  levels := by
    intro i l hi
    obtain ⟨m, hm, -, hpos⟩ := h.marked hi
    rw [levelOf_eq hm, h.levels hm, hpos, levelAt]
  ascending := by
    intro i j l k hi hj hij
    obtain ⟨m, hm, -, hpos⟩ := h.marked hi
    obtain ⟨n, hn, -, hpos'⟩ := h.marked hj
    rw [levelOf_eq hm, levelOf_eq hn]
    exact h.level_mono hm hn (hpos.symm ▸ hpos'.symm ▸ hij)
  unassigned := by
    intro v hv
    exact h.cleared (h.mark?_eq_none hv)
  limits := h.sorted
  limited := h.limited
  head := h.head_le

theorem SameAssignment.of_marks (ht : t.Valid) (ht' : t'.Valid)
    (hliterals : t'.literals = t.literals) (hlimits : t'.limits = t.limits)
    (hmarks : ∀ v, t'.mark? v = t.mark? v) : t.SameAssignment t' := by
  refine ⟨hliterals, hlimits, fun l => ?_, fun v => ?_, fun v => ?_⟩
  · rw [Bool.eq_iff_iff, ht'.holds_iff, ht.holds_iff, hmarks]
  · cases hm : t.mark? v with
    | none => rw [(ht.cleared hm).1, (ht'.cleared ((hmarks v).trans hm)).1]
    | some m => rw [levelOf_eq hm, levelOf_eq ((hmarks v).trans hm)]
  · cases hm : t.mark? v with
    | none => rw [(ht.cleared hm).2, (ht'.cleared ((hmarks v).trans hm)).2]
    | some m => rw [reasonOf_eq hm, reasonOf_eq ((hmarks v).trans hm)]

namespace StandsOn

theorem above (h : t₀.StandsOn t) : t₀.level < t.level :=
  (Array.getElem?_eq_some_iff.1 h.cut).1

/-- A trail stands on what it was before a level was opened. -/
theorem openLevel (ht : t.Valid) : t.StandsOn t.openLevel where
  limits := fun _ hi => Array.getElem?_push_lt hi ▸ (Array.getElem?_eq_getElem hi).symm
  cut := Array.getElem?_push_size
  marks := fun _ _ => ⟨fun hm => ⟨hm, ht.level_le hm⟩, And.left⟩
  head := Nat.le_refl _

/-! ## What happens above -/

variable (h : t₀.StandsOn t)
include h

theorem of_push (hl : t.Covers l.var) (hnone : t.mark? l.var = none) :
    t₀.StandsOn (t.push l r) where
  limits := h.limits
  cut := h.cut
  marks := by
    intro v m
    rw [h.marks]
    constructor
    · rintro ⟨hm, hle⟩
      exact ⟨mark?_push_of_some hnone hm, hle⟩
    · rintro ⟨hm, hle⟩
      rcases mark?_push hl hnone hm with ⟨-, rfl⟩ | ⟨-, hm⟩
      -- the new literal is above
      · exact absurd hle (Nat.not_le_of_lt h.above)
      · exact ⟨hm, hle⟩
  head := h.head

theorem of_openLevel : t₀.StandsOn t.openLevel where
  limits := by
    intro i hi
    have hlt : i < t.limits.size := Nat.lt_trans hi h.above
    rw [← h.limits i hi]
    exact (Array.getElem?_push_lt hlt).trans (Array.getElem?_eq_getElem hlt).symm
  cut := by
    have hlt : t₀.level < t.limits.size := h.above
    rw [← h.cut]
    exact (Array.getElem?_push_lt hlt).trans (Array.getElem?_eq_getElem hlt).symm
  marks := h.marks
  head := h.head

theorem of_growTo (hgrow : t.growTo n = .ok t') : t₀.StandsOn t' := by
  obtain ⟨hmarks, -, -, hlimits, hhead, -⟩ := growTo_eq_ok hgrow
  exact ⟨hlimits ▸ h.limits, hlimits ▸ h.cut, fun v m => hmarks v ▸ h.marks v m, hhead ▸ h.head⟩

theorem of_withHead (hn : t.head ≤ n) : t₀.StandsOn { t with head := n } where
  limits := h.limits
  cut := h.cut
  marks := h.marks
  head := Nat.le_trans h.head hn

/-- The trail below is not longer than where a level above begins. -/
theorem size_le_limit {cut : Nat} (ht : t.Valid) (hn : t₀.level < n)
    (hcut : t.limits[n]? = some cut) : t₀.literals.size ≤ cut := by
  obtain ⟨hlt₀, hget₀⟩ := Array.getElem?_eq_some_iff.1 h.cut
  obtain ⟨hlt, hget⟩ := Array.getElem?_eq_some_iff.1 hcut
  have hle := List.pairwise_iff_getElem.1 ht.sorted t₀.level n
    (by rwa [Array.length_toList]) (by rwa [Array.length_toList]) hn
  rwa [Array.getElem_toList, Array.getElem_toList, hget₀, hget] at hle

theorem of_undoTo (ht₀ : t₀.Valid) (ht : t.Valid) (hn : t₀.level < n) :
    t₀.StandsOn (t.undoTo n).1 where
  limits := fun i hi => (limits_undoTo (Nat.lt_trans hi hn)).trans (h.limits i hi)
  cut := (limits_undoTo hn).trans h.cut
  marks := by
    intro v m
    rw [h.marks, ht.mark?_undoTo]
    constructor
    · rintro ⟨hm, hle⟩
      exact ⟨⟨hm, Nat.le_trans hle (Nat.le_of_lt hn)⟩, hle⟩
    · rintro ⟨⟨hm, -⟩, hle⟩
      exact ⟨hm, hle⟩
  head := by
    cases hcut : t.limits[n]? with
    | none =>
      rw [undoTo_of_le (level_le_of_eq_none hcut)]
      exact h.head
    | some cut =>
      have hhead : (t.undoTo n).1.head = min t.head cut := by simp [Trail.undoTo, hcut]
      have h₁ := h.head
      have h₂ := ht₀.head_le
      have h₃ := h.size_le_limit ht hn hcut
      rw [hhead]
      omega

/-! ## Taking it back -/

/-- Below the levels above, the literals are those of the trail below. -/
theorem literals_extract (ht₀ : t₀.Valid) (ht : t.Valid) :
    t.literals.extract 0 t₀.literals.size = t₀.literals := by
  have hle : t₀.literals.size ≤ t.literals.size :=
    ht.limited _ (Array.mem_toList_iff.2 (Array.mem_of_getElem? h.cut))
  refine Array.ext_getElem? fun i => ?_
  rw [Array.getElem?_extract]
  split
  · next hi =>
    have hlt : i < t₀.literals.size := by omega
    obtain ⟨m, hm, hneg, hpos⟩ := ht₀.marked (Array.getElem?_eq_getElem hlt)
    have hat := ht.getElem?_of_mark ((h.marks _ m).1 hm).1 hneg
    rw [hpos] at hat
    rw [Nat.zero_add, Array.getElem?_eq_getElem hlt, hat]
  · next hi => exact (Array.getElem?_eq_none (by omega)).symm

/-- Taking back the levels above gives the assignment of the trail below. -/
theorem undoTo (ht₀ : t₀.Valid) (ht : t.Valid) : t₀.SameAssignment (t.undoTo t₀.level).1 ∧
    (t.undoTo t₀.level).1.head = min t.head t₀.literals.size := by
  have hundo : (t.undoTo t₀.level).1.literals = t.literals.extract 0 t₀.literals.size ∧
      (t.undoTo t₀.level).1.limits = t.limits.extract 0 t₀.level ∧
      (t.undoTo t₀.level).1.head = min t.head t₀.literals.size := by
    simp [Trail.undoTo, h.cut]
  obtain ⟨hliterals, hlimits, hhead⟩ := hundo
  refine ⟨.of_marks ht₀ ht.undoTo (hliterals.trans (h.literals_extract ht₀ ht)) (hlimits.trans ?_)
    fun v => ?_, hhead⟩
  · refine Array.ext_getElem? fun i => ?_
    have hlt := h.above
    unfold level at hlt ⊢
    rw [Array.getElem?_extract]
    split
    · next hi => rw [Nat.zero_add, h.limits i (show i < t₀.limits.size by omega)]
    · next hi => exact (Array.getElem?_eq_none (by omega)).symm
  · refine Option.ext fun m => ?_
    rw [ht.mark?_undoTo, h.marks]

end StandsOn
end Cdcl.Trail
