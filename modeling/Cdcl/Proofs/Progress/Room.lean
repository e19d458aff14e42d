import Cdcl.Proofs.Trail.Changes
import Cdcl.Proofs.Watches
import Cdcl.Proofs.Resolution.Reading

/-!
# Room for every variable

A table has `Room` for some number of variables if it has a cell for each of them, or for each of
their literals. Growing a table makes room as long as there are not too many variables, and with room
for its literals every operation on watch lists has a result and keeps the room.
-/

namespace Cdcl
set_option autoImplicit false

variable {α : Type} {vars width : Nat}

theorem Word.add_succeeds {a b : Nat} (h : a + b < Word.limit) : Word.add a b = .ok (a + b) :=
  if_pos h

theorem Word.reserve_succeeds {cells : Nat} (h : cells * width < Word.addressable) :
    Word.reserve cells width = .ok () :=
  require_eq_ok_iff.2 (decide_eq_true h)

/-! ## Tables over variables -/

namespace VarMap

variable {m : VarMap α} {v : Var} {a : α}

/-- Every variable up to `vars` has a cell. -/
def Room (m : VarMap α) (vars : Nat) : Prop :=
  ∀ v : Var, 1 ≤ v.id ∧ v.id ≤ vars → v.id < m.cells.size

theorem Room.get (h : v.id < m.cells.size) : ∃ a, m.get v = .ok a :=
  ⟨m.cells[v.id], get_eq_ok.2 (Array.getElem?_eq_getElem h)⟩

theorem Room.set (h : v.id < m.cells.size) : m.set v a = .ok (m.put v a) := if_pos h

theorem Room.of_size (h : m.Room vars) {m' : VarMap α} (hsize : m.cells.size ≤ m'.cells.size) :
    m'.Room vars :=
  fun v hv => Nat.lt_of_lt_of_le (h v hv) hsize

theorem room_of_grow {m' : VarMap α} {fill : α} (h : m.grow vars width fill = .ok m') :
    m'.Room vars := by
  have hsize := (grow_eq_ok h).2
  exact fun v hv => by omega

theorem grow_of_addressable (m : VarMap α) (fill : α) (hvars : vars + 1 < Word.limit)
    (hcells : (vars + 1) * width < Word.addressable) : ∃ m', m.grow vars width fill = .ok m' := by
  have hroom : room vars = .ok (vars + 1) := Word.add_succeeds hvars
  by_cases hlt : m.cells.size < vars + 1
  · exact ⟨_, bind_eq_ok_iff.2 ⟨_, hroom,
      (if_pos hlt).trans (bind_eq_ok_iff.2 ⟨(), Word.reserve_succeeds hcells, rfl⟩)⟩⟩
  · exact ⟨m, bind_eq_ok_iff.2 ⟨_, hroom, if_neg hlt⟩⟩

theorem grow_succeeds (m : VarMap α) (fill : α) (hvars : vars < Event.varLimit)
    (hwidth : width ≤ 24) : ∃ m', m.grow vars width fill = .ok m' ∧ m'.Room vars := by
  have hvars : vars < 1073741824 := hvars
  have hcells : (vars + 1) * width < Word.addressable := by
    refine Nat.lt_of_le_of_lt (Nat.mul_le_mul_left _ hwidth) ?_
    have hbound : (9223372036854775808 : Nat) = Word.addressable := rfl
    omega
  obtain ⟨m', hm'⟩ := m.grow_of_addressable fill
    (Nat.lt_trans (Nat.succ_lt_succ hvars) (by decide)) hcells
  exact ⟨m', hm', room_of_grow hm'⟩

end VarMap

/-! ## Tables over literals -/

namespace LiteralMap

variable {m : LiteralMap α} {l : Literal}

/-- Every literal of a variable up to `vars` has a cell. -/
def Room (m : LiteralMap α) (vars : Nat) : Prop :=
  ∀ l : Literal, 1 ≤ l.var.id ∧ l.var.id ≤ vars → l.code < m.cells.size

theorem code_lt (hl : l.var.id ≤ vars) : l.code < (vars + 1) * 2 := by
  have hsign : l.negative.toNat ≤ 1 := Bool.toNat_le l.negative
  unfold Literal.code
  omega

theorem grow_succeeds (m : LiteralMap α) (fill : α) (hvars : vars < Event.varLimit)
    (hwidth : width ≤ 24) : ∃ m', m.grow vars width fill = .ok m' ∧ m'.Room vars := by
  have hvars : vars < 1073741824 := hvars
  have hroom : room vars = .ok ((vars + 1) * 2) := by
    have hlimit : (18446744073709551616 : Nat) = Word.limit := rfl
    exact bind_eq_ok_iff.2 ⟨vars + 1, Word.add_succeeds (by omega), if_pos (by omega)⟩
  have hreserve : Word.reserve ((vars + 1) * 2) width = .ok () := by
    refine Word.reserve_succeeds (Nat.lt_of_le_of_lt (Nat.mul_le_mul_left _ hwidth) ?_)
    have hbound : (9223372036854775808 : Nat) = Word.addressable := rfl
    omega
  by_cases hlt : m.cells.size < (vars + 1) * 2
  · refine ⟨⟨padded m.cells ((vars + 1) * 2) fill⟩, bind_eq_ok_iff.2 ⟨_, hroom,
      (if_pos hlt).trans (bind_eq_ok_iff.2 ⟨(), hreserve, rfl⟩)⟩, fun l hl => ?_⟩
    exact (size_padded m.cells fill hlt).symm ▸ code_lt hl.2
  · refine ⟨m, bind_eq_ok_iff.2 ⟨_, hroom, if_neg hlt⟩, fun l hl => ?_⟩
    exact Nat.lt_of_lt_of_le (code_lt hl.2) (Nat.le_of_not_lt hlt)

namespace Room

variable (h : m.Room vars) (hl : 1 ≤ l.var.id ∧ l.var.id ≤ vars)
include h hl

theorem get : ∃ a, m.get l = .ok a := by
  unfold LiteralMap.get
  rw [Array.getElem?_eq_getElem (h l hl)]
  exact ⟨_, rfl⟩

theorem modify (f : α → α) : ∃ m', m.modify l f = .ok m' ∧ m'.Room vars :=
  ⟨⟨m.cells.modify l.code f⟩, if_pos (h l hl),
    fun k hk => Nat.lt_of_lt_of_eq (h k hk) Array.size_modify.symm⟩

end Room
end LiteralMap

/-! ## Watch lists -/

namespace Watches

variable {w : Watches} {l : Literal} {c : ClauseRef} {ls : List Literal}

/-- Every literal of a variable up to `vars` has a list. -/
def Room (w : Watches) (vars : Nat) : Prop := w.lists.Room vars

theorem growTo_succeeds (w : Watches) (hvars : vars < Event.varLimit) :
    ∃ w', w.growTo vars = .ok w' ∧ w'.Room vars := by
  obtain ⟨lists, hlists, hroom⟩ := LiteralMap.grow_succeeds w.lists #[] hvars
    (show cellWidth ≤ 24 from Nat.le_refl _)
  exact ⟨⟨lists⟩, bind_eq_ok_iff.2 ⟨_, hlists, rfl⟩, hroom⟩

namespace Room

variable (h : w.Room vars)
include h

theorem modify (hl : 1 ≤ l.var.id ∧ l.var.id ≤ vars) (f : Array ClauseRef → Array ClauseRef) :
    ∃ w', (w.lists.modify l f >>= fun lists => .ok (⟨lists⟩ : Watches)) = .ok w' ∧
      w'.Room vars := by
  obtain ⟨lists, hlists, hroom⟩ := LiteralMap.Room.modify h hl f
  exact ⟨⟨lists⟩, bind_eq_ok_iff.2 ⟨_, hlists, rfl⟩, hroom⟩

theorem add (hl : 1 ≤ l.var.id ∧ l.var.id ≤ vars) :
    ∃ w', w.add l c = .ok w' ∧ w'.Room vars := h.modify hl _

theorem remove (hl : 1 ≤ l.var.id ∧ l.var.id ≤ vars) :
    ∃ w', w.remove l c = .ok w' ∧ w'.Room vars := h.modify hl _

theorem restore (hl : 1 ≤ l.var.id ∧ l.var.id ≤ vars) (cs : List ClauseRef) :
    ∃ w', w.restore l cs = .ok w' ∧ w'.Room vars := h.modify hl _

theorem take (hl : 1 ≤ l.var.id ∧ l.var.id ≤ vars) :
    ∃ list w', w.take l = .ok (list, w') ∧ w'.Room vars := by
  obtain ⟨list, hlist⟩ := LiteralMap.Room.get h hl
  refine ⟨list, _, bind_eq_ok_iff.2 ⟨list, hlist, rfl⟩, fun k hk => ?_⟩
  exact Nat.lt_of_lt_of_eq (h k hk) Array.size_setIfInBounds.symm

theorem addAll (hls : ∀ l ∈ ls, 1 ≤ l.var.id ∧ l.var.id ≤ vars) :
    ∃ w', w.addAll c ls = .ok w' ∧ w'.Room vars := by
  induction ls generalizing w with
  | nil => exact ⟨w, rfl, h⟩
  | cons l ls ih =>
    obtain ⟨hl, hls⟩ := List.forall_mem_cons.1 hls
    obtain ⟨w₁, hw₁, hroom₁⟩ := Room.add h hl (c := c)
    obtain ⟨w₂, hw₂, hroom₂⟩ := ih hroom₁ hls
    exact ⟨w₂, bind_eq_ok_iff.2 ⟨w₁, hw₁, hw₂⟩, hroom₂⟩

theorem removeAll (hls : ∀ l ∈ ls, 1 ≤ l.var.id ∧ l.var.id ≤ vars) :
    ∃ w', w.removeAll c ls = .ok w' ∧ w'.Room vars := by
  induction ls generalizing w with
  | nil => exact ⟨w, rfl, h⟩
  | cons l ls ih =>
    obtain ⟨hl, hls⟩ := List.forall_mem_cons.1 hls
    obtain ⟨w₁, hw₁, hroom₁⟩ := Room.remove h hl (c := c)
    obtain ⟨w₂, hw₂, hroom₂⟩ := ih hroom₁ hls
    exact ⟨w₂, bind_eq_ok_iff.2 ⟨w₁, hw₁, hw₂⟩, hroom₂⟩

end Room
end Watches

/-! ## Trails -/

theorem Trail.growTo_succeeds (t : Trail) (hvars : vars < Event.varLimit) :
    ∃ t', t.growTo vars = .ok t' := by
  obtain ⟨truth, htruth, -⟩ :=
    LiteralMap.grow_succeeds t.truth false hvars (show 1 ≤ 24 by decide)
  obtain ⟨levels, hlevels, -⟩ := VarMap.grow_succeeds t.levels 0 hvars (show 4 ≤ 24 by decide)
  obtain ⟨reasons, hreasons, -⟩ :=
    VarMap.grow_succeeds t.reasons none hvars (show 8 ≤ 24 by decide)
  obtain ⟨positions, hpositions, -⟩ :=
    VarMap.grow_succeeds t.positions 0 hvars (show 4 ≤ 24 by decide)
  exact ⟨_, bind_eq_ok_iff.2 ⟨_, htruth, bind_eq_ok_iff.2 ⟨_, hlevels,
    bind_eq_ok_iff.2 ⟨_, hreasons, bind_eq_ok_iff.2 ⟨_, hpositions, rfl⟩⟩⟩⟩⟩

end Cdcl
