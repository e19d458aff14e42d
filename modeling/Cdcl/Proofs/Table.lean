import Mathlib.Tactic.Basic
import Cdcl.Table

/-!
# Reading tables after a change

What a cell of a `VarMap` or a `LiteralMap` holds after a cell was written or the table has grown.
Cells that are not there read as a default.
-/

namespace Cdcl
set_option autoImplicit false

variable {α : Type}

theorem getD_padded (cells : Array α) (count i : Nat) (fill : α) :
    (padded cells count fill).getD i fill = cells.getD i fill := by
  unfold padded
  rw [Array.getD_eq_getD_getElem?, Array.getD_eq_getD_getElem?, Array.getElem?_append]
  split
  · rfl
  · next hi =>
    rw [Array.getElem?_replicate, Array.getElem?_eq_none (Nat.le_of_not_lt hi)]
    split <;> rfl

theorem size_padded (cells : Array α) {count : Nat} (fill : α) (h : cells.size < count) :
    (padded cells count fill).size = count := by
  unfold padded
  rw [Array.size_append, Array.size_replicate]
  omega

/-! ## Variables -/

namespace VarMap

variable {m m' : VarMap α} {v w : Var} {a d : α}

theorem getD_put : (m.put v a).getD w d = if w = v ∧ v.id < m.cells.size then a else m.getD w d := by
  obtain ⟨i⟩ := v
  obtain ⟨j⟩ := w
  simp only [VarMap.getD, put, Array.getD_eq_getD_getElem?, Array.getElem?_setIfInBounds,
    Var.mk.injEq]
  by_cases hij : i = j
  · subst hij
    by_cases hi : i < m.cells.size
    · simp [hi]
    · simp [hi]
  · simp [hij, Ne.symm hij]

theorem getD_put_self (h : v.id < m.cells.size) : (m.put v a).getD v d = a := by
  rw [getD_put, if_pos ⟨rfl, h⟩]

theorem getD_put_of_ne (h : w ≠ v) : (m.put v a).getD w d = m.getD w d := by
  rw [getD_put, if_neg fun hw => h hw.1]

@[simp] theorem size_put : (m.put v a).cells.size = m.cells.size := Array.size_setIfInBounds

/-- Resetting the cells of some variables. -/
theorem getD_foldl_put {vs : List Var} :
    (vs.foldl (fun m v => m.put v d) m).getD w d = if w ∈ vs then d else m.getD w d := by
  induction vs generalizing m with
  | nil => rfl
  | cons v vs ih =>
    rw [List.foldl_cons, ih, getD_put]
    by_cases hw : w = v
    · subst hw
      by_cases hlt : w.id < m.cells.size
      · simp [hlt]
      · simp [hlt, VarMap.getD, Array.getD_eq_getD_getElem?]
    · simp [hw]

theorem get_eq_ok : m.get v = .ok a ↔ m.cells[v.id]? = some a := by
  unfold get
  split
  · next b hb => simp [hb]
  · next hb => simp [hb]

theorem getD_of_get (h : m.get v = .ok a) : m.getD v d = a := by
  rw [VarMap.getD, Array.getD_eq_getD_getElem?, get_eq_ok.1 h, Option.getD_some]

theorem lt_size_of_get (h : m.get v = .ok a) : v.id < m.cells.size :=
  (Array.getElem?_eq_some_iff.1 (get_eq_ok.1 h)).1

theorem get_eq_getD (d : α) : m.get v =
    if v.id < m.cells.size then .ok (m.getD v d) else .error .indexOutOfBounds := by
  unfold get getD
  rw [Array.getD_eq_getD_getElem?]
  by_cases hv : v.id < m.cells.size
  · rw [if_pos hv, Array.getElem?_eq_getElem hv, Option.getD_some]
  · rw [if_neg hv, Array.getElem?_eq_none (Nat.le_of_not_lt hv)]

theorem get_of_lt (h : v.id < m.cells.size) : m.get v = .ok (m.getD v d) := by
  rw [get_eq_getD d, if_pos h]

theorem get_put (hv : v.id < m.cells.size) :
    (m.put v a).get w = if w = v then .ok a else m.get w := by
  unfold get put
  rw [Array.getElem?_setIfInBounds]
  by_cases hw : w = v
  · rw [if_pos hw, hw, if_pos rfl, if_pos hv]
  · have hne : v.id ≠ w.id := fun he => hw (congrArg Var.mk he.symm)
    rw [if_neg hw, if_neg hne]

theorem get_map (f : α → α) (hv : v.id ≠ 0) : (m.map f).get v = (m.get v).map f := by
  unfold get map
  rw [Array.getElem?_mapIdx]
  cases m.cells[v.id]? with
  | none => rfl
  | some a => simp [hv, Except.map]

theorem set_eq_ok (h : m.set v a = .ok m') : v.id < m.cells.size ∧ m' = m.put v a := by
  unfold set at h
  split at h
  · next hv => exact ⟨hv, by simpa using h.symm⟩
  · exact absurd h (by simp)

/-- A table grows to one cell for every variable and one for the number 0; the old cells stay. -/
theorem grow_eq_ok {vars width : Nat} {fill : α} (h : m.grow vars width fill = .ok m') :
    (∀ v, m'.getD v fill = m.getD v fill) ∧ m'.cells.size = max m.cells.size (vars + 1) := by
  obtain ⟨count, hcount, h⟩ := bind_eq_ok_iff.1 h
  obtain ⟨-, rfl⟩ := Word.add_eq_ok hcount
  split at h
  · next hlt =>
    obtain ⟨_, -, h⟩ := bind_eq_ok_iff.1 h
    obtain rfl : _ = m' := Except.ok.inj h
    exact ⟨fun v => getD_padded m.cells _ v.id fill, by rw [size_padded _ _ hlt]; omega⟩
  · next hge =>
    obtain rfl : m = m' := Except.ok.inj h
    exact ⟨fun v => rfl, by omega⟩

/-- After a table has grown, the new variables have the given value. -/
theorem get_grow {vars width : Nat} {fill : α} (h : m.grow vars width fill = .ok m') :
    m'.get v = if v.id < m.cells.size then m.get v
      else if v.id ≤ vars then .ok fill else .error .indexOutOfBounds := by
  obtain ⟨hcells, hsize⟩ := grow_eq_ok h
  rw [get_eq_getD (d := fill), get_eq_getD (m := m) (d := fill), hcells, hsize]
  by_cases hold : v.id < m.cells.size
  · rw [if_pos hold, if_pos hold, if_pos (by omega)]
  · have hfill : m.getD v fill = fill := by
      rw [getD, Array.getD_eq_getD_getElem?, Array.getElem?_eq_none (Nat.le_of_not_lt hold),
        Option.getD_none]
    have hnew : v.id < max m.cells.size (vars + 1) ↔ v.id ≤ vars := by omega
    simp only [hold, if_false, hfill, hnew]

end VarMap

/-! ## Literals -/

namespace LiteralMap

variable {m m' : LiteralMap α} {l k : Literal} {a d : α}

theorem getD_put : (m.put l a).getD k d = if k = l ∧ l.code < m.cells.size then a else m.getD k d := by
  simp only [getD, put, Array.getD_eq_getD_getElem?, Array.getElem?_setIfInBounds]
  by_cases hkl : k = l
  · subst hkl
    by_cases hk : k.code < m.cells.size
    · simp [hk]
    · simp [hk]
  · have hcode : l.code ≠ k.code := fun e => hkl (Literal.code_injective e).symm
    simp [hkl, hcode]

theorem getD_put_of_ne (h : k ≠ l) : (m.put l a).getD k d = m.getD k d := by
  rw [getD_put, if_neg fun hk => h hk.1]

theorem getD_put_self (h : l.code < m.cells.size) : (m.put l a).getD l d = a := by
  rw [getD_put, if_pos ⟨rfl, h⟩]

@[simp] theorem size_put : (m.put l a).cells.size = m.cells.size := Array.size_setIfInBounds

/-- Resetting the cells of some literals. -/
theorem getD_foldl_put {ls : List Literal} :
    (ls.foldl (fun m l => m.put l d) m).getD k d = if k ∈ ls then d else m.getD k d := by
  induction ls generalizing m with
  | nil => rfl
  | cons l ls ih =>
    rw [List.foldl_cons, ih, getD_put]
    by_cases hk : k = l
    · subst hk
      by_cases hlt : k.code < m.cells.size
      · simp [hlt]
      · simp [hlt, getD, Array.getD_eq_getD_getElem?]
    · simp [hk]

theorem getD_of_get (h : m.get l = .ok a) : l.code < m.cells.size ∧ m.getD l d = a := by
  unfold get at h
  split at h
  · next b hb =>
    obtain rfl : b = a := Except.ok.inj h
    obtain ⟨hl, -⟩ := Array.getElem?_eq_some_iff.1 hb
    exact ⟨hl, by rw [getD, Array.getD_eq_getD_getElem?, hb, Option.getD_some]⟩
  · exact absurd h (by simp)

theorem get_of_lt (h : l.code < m.cells.size) : m.get l = .ok (m.getD l d) := by
  unfold get getD
  rw [Array.getD_eq_getD_getElem?, Array.getElem?_eq_getElem h]
  rfl

/-- Changing the value of a literal leaves the other cells as they are. -/
theorem modify_eq_ok {f : α → α} (h : m.modify l f = .ok m') :
    m'.getD l d = f (m.getD l d) ∧ (∀ k, k ≠ l → m'.getD k d = m.getD k d) ∧
      m'.cells.size = m.cells.size := by
  unfold modify at h
  split at h
  · next hl =>
    obtain rfl : _ = m' := Except.ok.inj h
    refine ⟨?_, fun k hk => ?_, Array.size_modify⟩
    · rw [getD, getD, Array.getD_eq_getD_getElem?, Array.getD_eq_getD_getElem?,
        Array.getElem?_modify, if_pos rfl, Array.getElem?_eq_getElem hl]
      rfl
    · have hcode : l.code ≠ k.code := fun e => hk (Literal.code_injective e).symm
      simp [getD, Array.getD_eq_getD_getElem?, Array.getElem?_modify, hcode]
  · exact absurd h (by simp)

/-- A table grows to two cells for every variable and for the number 0; the old cells stay. -/
theorem grow_eq_ok {vars width : Nat} {fill : α} (h : m.grow vars width fill = .ok m') :
    (∀ l, m'.getD l fill = m.getD l fill) ∧
      m'.cells.size = max m.cells.size (2 * (vars + 1)) := by
  obtain ⟨count, hcount, h⟩ := bind_eq_ok_iff.1 h
  obtain ⟨succ, hsucc, hcount⟩ := bind_eq_ok_iff.1 hcount
  obtain ⟨-, rfl⟩ := Word.add_eq_ok hsucc
  obtain ⟨-, rfl⟩ := Word.mul_eq_ok hcount
  split at h
  · next hlt =>
    obtain ⟨_, -, h⟩ := bind_eq_ok_iff.1 h
    obtain rfl : _ = m' := Except.ok.inj h
    exact ⟨fun l => getD_padded m.cells _ l.code fill, by rw [size_padded _ _ hlt]; omega⟩
  · next hge =>
    obtain rfl : m = m' := Except.ok.inj h
    exact ⟨fun l => rfl, by omega⟩

end LiteralMap
end Cdcl
