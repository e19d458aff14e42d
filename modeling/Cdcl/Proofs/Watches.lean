import Mathlib.Data.List.Perm.Basic
import Cdcl.Proofs.Table
import Cdcl.Watches

/-!
# Counting the entries of watch lists

`Watches.tally` is how often a constraint is on the list of a literal. Every operation on the lists
changes it in the obvious way.
-/

namespace Cdcl.Watches
set_option autoImplicit false

/-- How often a constraint is on the list of a literal. -/
def tally (w : Watches) (l : Literal) (c : ClauseRef) : Nat :=
  (w.lists.getD l #[]).toList.count c

variable {w w' : Watches} {l k : Literal} {c r : ClauseRef}

theorem tally_empty : tally {} l c = 0 := by
  simp [tally, LiteralMap.getD, LiteralMap.empty]

theorem tally_growTo {vars : Nat} (h : w.growTo vars = .ok w') : w'.tally k r = w.tally k r := by
  obtain ⟨lists, hlists, h⟩ := bind_eq_ok_iff.1 h
  obtain rfl : _ = w' := Except.ok.inj h
  rw [tally, tally, (LiteralMap.grow_eq_ok hlists).1]

/-- Changing one list changes the tallies of its literal only. -/
theorem tally_modify {lists : LiteralMap (Array ClauseRef)} {f : Array ClauseRef → Array ClauseRef}
    (h : w.lists.modify l f = .ok lists) :
    tally ⟨lists⟩ k r = if k = l then (f (w.lists.getD l #[])).toList.count r else w.tally k r := by
  obtain ⟨hself, hother, -⟩ := LiteralMap.modify_eq_ok (d := #[]) h
  by_cases hk : k = l
  · subst hk
    rw [if_pos rfl, tally, hself]
  · rw [if_neg hk, tally, tally, hother k hk]

theorem tally_add (h : w.add l c = .ok w') :
    w'.tally k r = w.tally k r + if k = l ∧ r = c then 1 else 0 := by
  obtain ⟨lists, hlists, h⟩ := bind_eq_ok_iff.1 h
  obtain rfl : _ = w' := Except.ok.inj h
  rw [tally_modify hlists]
  by_cases hk : k = l
  · subst hk
    rw [if_pos rfl, Array.toList_push, List.count_append, List.count_singleton]
    simp only [true_and, beq_iff_eq, eq_comm (a := c)]
    rfl
  · simp [hk]

theorem tally_addAll {ls : List Literal} (h : w.addAll c ls = .ok w') :
    w'.tally k r = w.tally k r + if r = c then ls.count k else 0 := by
  induction ls generalizing w with
  | nil =>
    obtain rfl : w = w' := Except.ok.inj h
    simp
  | cons l ls ih =>
    obtain ⟨w₁, hw₁, h⟩ := bind_eq_ok_iff.1 h
    rw [ih h, tally_add hw₁, List.count_cons]
    by_cases hr : r = c
    · simp only [hr, and_true, if_true, beq_iff_eq, eq_comm (a := l)]
      omega
    · simp [hr]

/-! ## Taking off -/

/-- Trading places with the last entry takes off exactly one entry. -/
theorem count_swapRemove {list : Array ClauseRef} {i : Nat} (hi : i < list.size) :
    (swapRemove list i).toList.count r + (if list[i] = r then 1 else 0) = list.toList.count r := by
  obtain ⟨xs⟩ := list
  obtain ⟨ys, z, rfl⟩ : ∃ ys z, xs = ys ++ [z] :=
    ⟨_, _, (List.dropLast_append_getLast (List.ne_nil_of_length_pos (Nat.lt_of_le_of_lt
      (Nat.zero_le i) hi))).symm⟩
  have hi' : i < (ys ++ [z]).length := hi
  have hset : ∃ ws, (ys ++ [z]).set i z = ws ++ [z] := by
    rw [List.set_append]
    split
    · exact ⟨_, rfl⟩
    · next hge =>
      have : i - ys.length = 0 := by
        simp only [List.length_append, List.length_singleton] at hi'
        omega
      exact ⟨ys, by simp [this]⟩
  obtain ⟨ws, hws⟩ := hset
  have hswap : (swapRemove ⟨ys ++ [z]⟩ i).toList = ws := by
    simp [swapRemove, hws]
  have hcount := List.count_set (a := z) (b := r) hi'
  rw [hws, List.count_append, List.count_append, List.count_singleton] at hcount
  have hpos : (ys ++ [z])[i] = r → 1 ≤ (ys ++ [z]).count r := by
    intro he
    exact List.count_pos_iff.2 (he ▸ List.getElem_mem hi')
  rw [hswap]
  simp only [List.count_append, List.count_singleton, beq_iff_eq] at hcount hpos ⊢
  change _ + (if (ys ++ [z])[i] = r then 1 else 0) = _
  split at hcount <;> split at hcount <;> simp_all

theorem count_without {list : Array ClauseRef} :
    (without c list).toList.count r = list.toList.count r - if r = c then 1 else 0 := by
  unfold without
  split
  · next i hi =>
    obtain ⟨hlt, heq, -⟩ := Array.findIdx?_eq_some_iff_getElem.1 hi
    have hcount := count_swapRemove (r := r) hlt
    have hic : list[i] = c := by simpa using heq
    rw [hic] at hcount
    simp only [eq_comm (a := c)] at hcount
    omega
  · next hnone =>
    by_cases hr : r = c
    · subst hr
      have hnot : r ∉ list.toList := by
        intro hin
        have := Array.findIdx?_eq_none_iff.1 hnone r (Array.mem_toList_iff.1 hin)
        simp at this
      rw [List.count_eq_zero_of_not_mem hnot, Nat.zero_sub]
    · simp [hr]

theorem tally_remove (h : w.remove l c = .ok w') :
    w'.tally k r = w.tally k r - if k = l ∧ r = c then 1 else 0 := by
  obtain ⟨lists, hlists, h⟩ := bind_eq_ok_iff.1 h
  obtain rfl : _ = w' := Except.ok.inj h
  rw [tally_modify hlists]
  by_cases hk : k = l
  · subst hk
    rw [if_pos rfl, count_without]
    simp only [true_and]
    rfl
  · simp [hk]

theorem tally_removeAll {ls : List Literal} (h : w.removeAll c ls = .ok w') :
    w'.tally k r = w.tally k r - if r = c then ls.count k else 0 := by
  induction ls generalizing w with
  | nil =>
    obtain rfl : w = w' := Except.ok.inj h
    simp
  | cons l ls ih =>
    obtain ⟨w₁, hw₁, h⟩ := bind_eq_ok_iff.1 h
    rw [ih h, tally_remove hw₁, List.count_cons]
    by_cases hr : r = c
    · simp only [hr, and_true, if_true, beq_iff_eq, eq_comm (a := l)]
      omega
    · simp [hr]

/-! ## Taking and restoring a list -/

theorem take_eq_ok {list : Array ClauseRef} (h : w.take l = .ok (list, w')) :
    list = w.lists.getD l #[] ∧ w'.tally k r = if k = l then 0 else w.tally k r := by
  obtain ⟨list', hlist, h⟩ := bind_eq_ok_iff.1 h
  obtain ⟨rfl, rfl⟩ := Prod.mk.inj (Except.ok.inj h)
  obtain ⟨hlt, hget⟩ := LiteralMap.getD_of_get (d := #[]) hlist
  refine ⟨hget.symm, ?_⟩
  by_cases hk : k = l
  · subst hk
    rw [if_pos rfl, tally, LiteralMap.getD_put_self hlt]
    rfl
  · rw [if_neg hk, tally, tally, LiteralMap.getD_put_of_ne hk]

theorem tally_restore {cs : List ClauseRef} (h : w.restore l cs = .ok w') :
    w'.tally k r = w.tally k r + if k = l then cs.count r else 0 := by
  obtain ⟨lists, hlists, h⟩ := bind_eq_ok_iff.1 h
  obtain rfl : _ = w' := Except.ok.inj h
  rw [tally_modify hlists]
  by_cases hk : k = l
  · subst hk
    rw [if_pos rfl, if_pos rfl, Array.toList_append, List.count_append]
    rfl
  · simp [hk]

/-! ## Whole lists -/

/-- The constraints on the list of a literal, none if the literal has no list. -/
def entries (w : Watches) (l : Literal) : Array ClauseRef := w.lists.getD l #[]

theorem entries_growTo {vars : Nat} (h : w.growTo vars = .ok w') : w'.entries k = w.entries k := by
  obtain ⟨lists, hlists, h⟩ := bind_eq_ok_iff.1 h
  obtain rfl : _ = w' := Except.ok.inj h
  exact (LiteralMap.grow_eq_ok hlists).1 k

theorem entries_modify {f : Array ClauseRef → Array ClauseRef}
    (h : (w.lists.modify l f >>= fun lists => .ok (⟨lists⟩ : Watches)) = .ok w') :
    w'.entries k = if k = l then f (w.entries k) else w.entries k := by
  obtain ⟨lists, hlists, h⟩ := bind_eq_ok_iff.1 h
  obtain rfl : _ = w' := Except.ok.inj h
  obtain ⟨hself, hother, -⟩ := LiteralMap.modify_eq_ok (d := #[]) hlists
  by_cases hk : k = l
  · subst hk
    rw [if_pos rfl]
    exact hself
  · rw [if_neg hk]
    exact hother k hk

theorem entries_add (h : w.add l c = .ok w') :
    w'.entries k = if k = l then (w.entries k).push c else w.entries k := entries_modify h

theorem entries_remove (h : w.remove l c = .ok w') :
    w'.entries k = if k = l then without c (w.entries k) else w.entries k := entries_modify h

theorem entries_take {list : Array ClauseRef} (h : w.take l = .ok (list, w')) :
    w'.entries k = if k = l then #[] else w.entries k := by
  obtain ⟨list', hlist, h⟩ := bind_eq_ok_iff.1 h
  obtain ⟨-, rfl⟩ := Prod.mk.inj (Except.ok.inj h)
  obtain ⟨hlt, -⟩ := LiteralMap.getD_of_get (d := #[]) hlist
  by_cases hk : k = l
  · subst hk
    rw [if_pos rfl]
    exact LiteralMap.getD_put_self hlt
  · rw [if_neg hk]
    exact LiteralMap.getD_put_of_ne hk

end Cdcl.Watches
