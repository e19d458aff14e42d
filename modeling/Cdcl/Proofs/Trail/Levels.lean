import Cdcl.Proofs.Trail.Changes

/-!
# Decisions and roots of a trail

`Trail.Decided` says that a literal above level 0 without a reason is the first one of its level. So
every later literal of a level has a reason (`Decided.exists_reason`). `Trail.SameRoot` says that two
trails have the same literals at level 0, at the same places; only propagation and assertions at level
0 change them.
-/

namespace Cdcl
set_option autoImplicit false

/-- Above level 0, only the first literal of a level has no reason. -/
def Trail.Decided (t : Trail) : Prop :=
  ∀ v m, t.mark? v = some m → m.reason = none → 0 < m.level →
    t.limits[m.level - 1]? = some m.position

namespace Trail

variable {t t' : Trail} {l : Literal} {v w : Var} {m m' : Mark} {r : Option ClauseRef} {n : Nat}

theorem decided_of_level_zero (h : t.Valid) (hlev : t.level = 0) : t.Decided := by
  intro v m hm _ hpos
  have := h.level_le hm
  omega

/-- A literal that is not the first of its level has a reason. -/
theorem Decided.exists_reason (h : t.Decided) (ht : t.Valid) (hm : t.mark? v = some m)
    (hm' : t.mark? w = some m') (hbefore : m'.position < m.position) (hlevel : m'.level = m.level)
    (hpos : 0 < m.level) : ∃ ref, m.reason = some ref := by
  cases hr : m.reason with
  | some ref => exact ⟨ref, rfl⟩
  | none =>
    have hle := (ht.level_le_iff (h v m hm hr hpos) hm').2 hbefore
    omega

theorem Decided.of_extends (h : t.Decided) (ht : t.Extends t') : t'.Decided := by
  intro v m hm hreason hpos
  rw [ht.limits]
  rcases ht.old_or_fresh hm with hold | ⟨-, hsome, -⟩
  · exact h v m hold hreason hpos
  · simp [hreason] at hsome

theorem Decided.of_forgets (h : t.Decided) (ht : t.Forgets t') : t'.Decided := by
  intro v m hm hreason hpos
  rw [ht.limits]
  rcases ht.marks v with hsame | ⟨n, -, hzero, hn⟩
  · exact h v m (hsame.symm.trans hm) hreason hpos
  · obtain rfl := Option.some.inj (hm.symm.trans hn)
    exact absurd hpos (Nat.not_lt.2 (Nat.le_of_eq hzero))

theorem Decided.growTo (h : t.Decided) (ht : t.growTo n = .ok t') : t'.Decided := by
  obtain ⟨hmarks, -, -, hlimits, -⟩ := growTo_eq_ok ht
  intro v m hm
  rw [hlimits]
  exact h v m (hmarks v ▸ hm)

/-- A forced literal, or one that is fixed at level 0, is no decision. -/
theorem Decided.push (h : t.Decided) (hcell : t.Covers l.var) (hnone : t.mark? l.var = none)
    (hr : r = none → t.level = 0) : (t.push l r).Decided := by
  intro v m hm hreason hpos
  rcases mark?_push hcell hnone hm with ⟨-, rfl⟩ | ⟨-, hold⟩
  · exact absurd (hr hreason) (Nat.ne_of_gt hpos)
  · exact h v m hold hreason hpos

theorem Decided.openLevel (h : t.Decided) (ht : t.Valid) : t.openLevel.Decided := by
  intro v m hm hreason hpos
  have hle := ht.level_le hm
  change (t.limits.push t.literals.size)[m.level - 1]? = _
  rw [Array.getElem?_push, if_neg (show m.level - 1 ≠ t.limits.size by unfold level at hle; omega)]
  exact h v m hm hreason hpos

/-- A decision is the first literal of the level that it opens. -/
theorem Decided.decide (h : t.Decided) (ht : t.Valid) (hname : t.Names l)
    (hnone : t.mark? l.var = none) : (t.openLevel.push l none).Decided := by
  intro v m hm hreason hpos
  have hcell : t.openLevel.Covers l.var := (ht.covers hname).openLevel
  rcases mark?_push hcell hnone hm with ⟨-, rfl⟩ | ⟨-, hold⟩
  · rw [level_openLevel, Nat.add_sub_cancel]
    change (t.limits.push t.literals.size)[t.limits.size]? = _
    exact Array.getElem?_push_size
  · exact h.openLevel ht v m hold hreason hpos

theorem limits_undoTo {i : Nat} (hi : i < n) : (t.undoTo n).1.limits[i]? = t.limits[i]? := by
  unfold undoTo
  split
  · rfl
  · next cut hcut =>
    have hlt := (Array.getElem?_eq_some_iff.1 hcut).1
    rw [Array.getElem?_extract, if_pos (by omega), Nat.zero_add]

theorem Decided.undoTo (h : t.Decided) (ht : t.Valid) : (t.undoTo n).1.Decided := by
  intro v m hm hreason hpos
  obtain ⟨hold, hle⟩ := ht.mark?_undoTo.1 hm
  rw [limits_undoTo (by omega)]
  exact h v m hold hreason hpos

/-! ## Literals at level 0 -/

/-- The variables assigned at level 0 are the same, and each has kept its place. -/
structure SameRoot (t t' : Trail) : Prop where
  kept : ∀ v m, t.mark? v = some m → m.level = 0 →
    ∃ m', t'.mark? v = some m' ∧ m'.level = 0 ∧ m'.position = m.position
  old : ∀ v m', t'.mark? v = some m' → m'.level = 0 → ∃ m, t.mark? v = some m ∧ m.level = 0

namespace SameRoot

theorem of_mark_eq (h : ∀ v, t'.mark? v = t.mark? v) : t.SameRoot t' :=
  ⟨fun v m hm hzero => ⟨m, (h v).trans hm, hzero, rfl⟩,
    fun v m hm hzero => ⟨m, (h v).symm.trans hm, hzero⟩⟩

theorem trans {t'' : Trail} (h : t.SameRoot t') (h' : t'.SameRoot t'') : t.SameRoot t'' where
  kept := by
    intro v m hm hzero
    obtain ⟨m', hm', hzero', hpos'⟩ := h.kept v m hm hzero
    obtain ⟨m'', hm'', hzero'', hpos''⟩ := h'.kept v m' hm' hzero'
    exact ⟨m'', hm'', hzero'', hpos''.trans hpos'⟩
  old := by
    intro v m hm hzero
    obtain ⟨m', hm', hzero'⟩ := h'.old v m hm hzero
    exact h.old v m' hm' hzero'

theorem of_extends (h : t.Extends t') (hlev : 0 < t.level) : t.SameRoot t' where
  kept := fun v m hm hzero => ⟨m, h.marks hm, hzero, rfl⟩
  old := by
    intro v m hm hzero
    rcases h.old_or_fresh hm with hold | ⟨-, -, hlevel, -⟩
    · exact ⟨m, hold, hzero⟩
    · omega

theorem of_forgets (h : t.Forgets t') : t.SameRoot t' where
  kept := by
    intro v m hm hzero
    obtain ⟨n, hn, -, hlevel, hpos⟩ := h.new hm
    exact ⟨n, hn, hlevel.trans hzero, hpos⟩
  old := by
    intro v m hm hzero
    obtain ⟨n, hn, -, hlevel, -⟩ := h.old hm
    exact ⟨n, hn, hlevel.trans hzero⟩

theorem push (hcell : t.Covers l.var) (hnone : t.mark? l.var = none)
    (hlev : 0 < t.level) : t.SameRoot (t.push l r) where
  kept := fun v m hm hzero => ⟨m, mark?_push_of_some hnone hm, hzero, rfl⟩
  old := by
    intro v m hm hzero
    rcases mark?_push hcell hnone hm with ⟨-, rfl⟩ | ⟨-, hold⟩
    · exact absurd hzero (Nat.ne_of_gt hlev)
    · exact ⟨m, hold, hzero⟩

theorem undoTo (h : t.Valid) : t.SameRoot (t.undoTo n).1 where
  kept := fun v m hm hzero => ⟨m, h.mark?_undoTo_eq hm (by omega), hzero, rfl⟩
  old := fun v m hm hzero => ⟨m, (h.mark?_undoTo.1 hm).1, hzero⟩

end SameRoot

end Trail
end Cdcl
