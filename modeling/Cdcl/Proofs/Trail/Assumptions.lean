import Cdcl.Proofs.Trail.Changes

/-!
# Assumptions on the trail

`Trail.Assumes` says where assumptions stand on a trail: the one at place `i` holds at level `i + 1`
or below if that level is open, and whatever was decided on the levels of the assumptions is the
assumption of its level.
-/

namespace Cdcl
set_option autoImplicit false

/-- The assumptions hold on the levels that were opened for them, and nothing else was decided
there. -/
structure Trail.Assumes (t : Trail) (A : List Literal) : Prop where
  made : ∀ i l, A[i]? = some l → i < t.level → t.holds l = true ∧ t.levelOf l.var ≤ i + 1
  decided : ∀ v m, t.mark? v = some m → m.reason = none → 0 < m.level → m.level ≤ A.length →
    A[m.level - 1]? = some ⟨v, m.negative⟩

namespace Trail

variable {t t' : Trail} {A : List Literal} {l : Literal} {r : Option ClauseRef} {n : Nat}

theorem assumes_of_level_zero (h : t.Valid) (hlev : t.level = 0) : t.Assumes A where
  made := by
    intro i l _ hi
    omega
  decided := by
    intro v m hm _ hpos _
    have := h.level_le hm
    omega

theorem Assumes.of_extends (h : t.Assumes A) (ht : t.Extends t') : t'.Assumes A where
  made := by
    intro i l hl hi
    rw [ht.level] at hi
    obtain ⟨hholds, hle⟩ := h.made i l hl hi
    exact ⟨ht.holds hholds, ht.levelOf hholds ▸ hle⟩
  decided := by
    intro v m hm hreason
    rcases ht.old_or_fresh hm with hold | ⟨-, hsome, -⟩
    · exact h.decided v m hold hreason
    · simp [hreason] at hsome

theorem Assumes.of_forgets (h : t.Assumes A) (ht : t.Forgets t') : t'.Assumes A where
  made := by
    intro i l hl hi
    rw [ht.level] at hi
    rw [ht.holds_eq, ht.levelOf_eq]
    exact h.made i l hl hi
  decided := by
    intro v m hm hreason hpos hle
    rcases ht.marks v with hsame | ⟨n, -, hzero, hn⟩
    · exact h.decided v m (hsame.symm.trans hm) hreason hpos hle
    · obtain rfl := Option.some.inj (hm.symm.trans hn)
      exact absurd hpos (Nat.not_lt.2 (Nat.le_of_eq hzero))

theorem Assumes.undoTo (h : t.Assumes A) (ht : t.Valid) : (t.undoTo n).1.Assumes A where
  made := by
    intro i l hl hi
    rw [level_undoTo, Nat.lt_min] at hi
    obtain ⟨hholds, hle⟩ := h.made i l hl hi.1
    obtain ⟨m, hm⟩ := exists_mark hholds
    have hlev : m.level ≤ n := by
      rw [levelOf_eq hm] at hle
      omega
    refine ⟨ht.holds_undoTo.2 ⟨hholds, by rw [levelOf_eq hm]; exact hlev⟩, ?_⟩
    rw [levelOf_eq (ht.mark?_undoTo_eq hm hlev)]
    rwa [levelOf_eq hm] at hle
  decided := fun v m hm => h.decided v m (ht.mark?_undoTo.1 hm).1

/-- A forced literal, or one that is fixed at level 0, is no decision. -/
theorem Assumes.push (h : t.Assumes A) (hcell : t.Covers l.var)
    (hnone : t.mark? l.var = none) (hr : r = none → t.level = 0) : (t.push l r).Assumes A where
  made := by
    intro i k hk hi
    obtain ⟨hholds, hle⟩ := h.made i k hk hi
    obtain ⟨m, hm⟩ := exists_mark hholds
    rw [levelOf_eq (mark?_push_of_some hnone hm), ← levelOf_eq hm]
    exact ⟨(holds_push hcell).2 (Or.inr hholds), hle⟩
  decided := by
    intro v m hm hreason hpos
    rcases mark?_push hcell hnone hm with ⟨-, rfl⟩ | ⟨-, hold⟩
    · exact absurd (hr hreason) (Nat.ne_of_gt hpos)
    · exact h.decided v m hold hreason hpos

theorem Assumes.openLevel (h : t.Assumes A) (ht : t.Valid)
    (hl : ∀ l, A[t.level]? = some l → t.holds l = true) : t.openLevel.Assumes A where
  made := by
    intro i l hA hi
    rw [level_openLevel] at hi
    by_cases hlt : i < t.level
    · exact h.made i l hA hlt
    · obtain rfl : i = t.level := by omega
      exact ⟨hl l hA, Nat.le_trans (ht.levelOf_le l.var) (Nat.le_succ _)⟩
  decided := h.decided

/-- A decision is the assumption of its level, if there is one. -/
theorem Assumes.decide (h : t.Assumes A) (ht : t.Valid) (hname : t.Names l)
    (hnone : t.mark? l.var = none) (hl : ∀ k, A[t.level]? = some k → k = l) :
    (t.openLevel.push l none).Assumes A where
  made := by
    intro i k hk hi
    have hcell : t.openLevel.Covers l.var := (ht.covers hname).openLevel
    change i < t.openLevel.level at hi
    rw [level_openLevel] at hi
    by_cases hlt : i < t.level
    · obtain ⟨hholds, hle⟩ := h.made i k hk hlt
      obtain ⟨m, hm⟩ := exists_mark hholds
      rw [levelOf_eq (mark?_push_of_some (t := t.openLevel) hnone hm), ← levelOf_eq hm]
      exact ⟨(holds_push hcell).2 (Or.inr hholds), hle⟩
    · obtain rfl : i = t.level := by omega
      obtain rfl := hl k hk
      rw [levelOf_eq (mark?_push_self hcell hnone), level_openLevel]
      exact ⟨(holds_push hcell).2 (Or.inl rfl), Nat.le_refl _⟩
  decided := by
    intro v m hm hreason hpos hle
    have hcell : t.openLevel.Covers l.var := (ht.covers hname).openLevel
    rcases mark?_push hcell hnone hm with ⟨rfl, rfl⟩ | ⟨-, hold⟩
    · simp only [level_openLevel] at hle ⊢
      obtain ⟨k, hk⟩ : ∃ k, A[t.level]? = some k := ⟨_, List.getElem?_eq_getElem hle⟩
      rw [Nat.add_sub_cancel, hk, hl k hk]
    · exact h.decided v m hold hreason hpos hle

end Trail

end Cdcl
