import Cdcl.Literal

/-!
# Laws of ordered literals

`Literal.sort` permutes a list into ascending order. `Literal.canonical` has the members of the list
it is given and ascends strictly, so it depends on these members only.
-/

namespace Cdcl.Literal
set_option autoImplicit false

/-- The codes of a list ascend, and no literal occurs twice. -/
abbrev Ascending (ls : List Literal) : Prop := ls.Pairwise fun l m => l.code < m.code

/-! ## Sorting -/

theorem insert_perm (l : Literal) (ls : List Literal) : (insert l ls).Perm (l :: ls) := by
  induction ls with
  | nil => exact List.Perm.refl _
  | cons m ms ih =>
    rw [insert]
    split
    · exact List.Perm.refl _
    · exact (ih.cons m).trans (List.Perm.swap l m ms)

theorem sort_perm (ls : List Literal) : (sort ls).Perm ls := by
  induction ls with
  | nil => exact List.Perm.refl _
  | cons l ls ih => exact (insert_perm l (sort ls)).trans (ih.cons l)

theorem pairwise_insert {l : Literal} {ls : List Literal}
    (h : ls.Pairwise fun a b => a.code ≤ b.code) :
    (insert l ls).Pairwise fun a b => a.code ≤ b.code := by
  induction ls with
  | nil => simp [insert]
  | cons m ms ih =>
    rw [List.pairwise_cons] at h
    rw [insert]
    split
    · next hle =>
      refine List.pairwise_cons.2 ⟨?_, List.pairwise_cons.2 h⟩
      intro k hk
      rcases List.mem_cons.1 hk with rfl | hk
      · exact hle
      · exact Nat.le_trans hle (h.1 k hk)
    · next hle =>
      refine List.pairwise_cons.2 ⟨?_, ih h.2⟩
      intro k hk
      rcases List.mem_cons.1 ((insert_perm l ms).mem_iff.1 hk) with rfl | hk
      · omega
      · exact h.1 k hk

theorem pairwise_sort (ls : List Literal) : (sort ls).Pairwise fun a b => a.code ≤ b.code := by
  induction ls with
  | nil => exact List.Pairwise.nil
  | cons l ls ih => exact pairwise_insert ih

/-! ## Canonical lists -/

theorem mem_insertNew {k l : Literal} {ls : List Literal} :
    k ∈ insertNew l ls ↔ k = l ∨ k ∈ ls := by
  induction ls with
  | nil => simp [insertNew]
  | cons m ms ih =>
    rw [insertNew]
    split
    · next h => subst h; simp
    · split
      · simp
      · rw [List.mem_cons, ih, List.mem_cons]
        exact or_left_comm

@[simp] theorem mem_canonical {k : Literal} {ls : List Literal} :
    k ∈ canonical ls ↔ k ∈ ls := by
  induction ls with
  | nil => simp [canonical]
  | cons l ls ih => rw [canonical, List.foldr_cons, mem_insertNew, List.mem_cons, ← ih, canonical]

theorem ascending_insertNew {l : Literal} {ls : List Literal} (h : Ascending ls) :
    Ascending (insertNew l ls) := by
  induction ls with
  | nil => simp [insertNew]
  | cons m ms ih =>
    rw [Ascending, List.pairwise_cons] at h
    rw [insertNew]
    split
    · exact List.pairwise_cons.2 h
    · next hne =>
      split
      · next hlt =>
        refine List.pairwise_cons.2 ⟨?_, List.pairwise_cons.2 h⟩
        intro k hk
        rcases List.mem_cons.1 hk with rfl | hk
        · exact hlt
        · exact Nat.lt_trans hlt (h.1 k hk)
      · next hge =>
        refine List.pairwise_cons.2 ⟨?_, ih h.2⟩
        intro k hk
        rcases mem_insertNew.1 hk with rfl | hk
        · have hcode : k.code ≠ m.code := fun e => hne (code_injective e)
          omega
        · exact h.1 k hk

theorem ascending_canonical (ls : List Literal) : Ascending (canonical ls) := by
  induction ls with
  | nil => exact List.Pairwise.nil
  | cons l ls ih => exact ascending_insertNew ih

/-- Two strictly ascending lists with the same members are equal. -/
theorem eq_of_ascending {ls ms : List Literal} (hl : Ascending ls) (hm : Ascending ms)
    (h : ∀ k, k ∈ ls ↔ k ∈ ms) : ls = ms := by
  induction ls generalizing ms with
  | nil =>
    cases ms with
    | nil => rfl
    | cons m ms => exact absurd ((h m).2 List.mem_cons_self) List.not_mem_nil
  | cons l ls ih =>
    cases ms with
    | nil => exact absurd ((h l).1 List.mem_cons_self) List.not_mem_nil
    | cons m ms =>
      rw [Ascending, List.pairwise_cons] at hl hm
      have hlm : l = m := by
        rcases List.mem_cons.1 ((h l).1 List.mem_cons_self) with e | hin
        · exact e
        · rcases List.mem_cons.1 ((h m).2 List.mem_cons_self) with e | hin'
          · exact e.symm
          · have h1 := hm.1 l hin
            have h2 := hl.1 m hin'
            omega
      subst hlm
      have hrest : ∀ k, k ∈ ls ↔ k ∈ ms := by
        intro k
        constructor
        · intro hk
          rcases List.mem_cons.1 ((h k).1 (List.mem_cons_of_mem _ hk)) with e | hin
          · have := hl.1 k hk
            rw [e] at this
            omega
          · exact hin
        · intro hk
          rcases List.mem_cons.1 ((h k).2 (List.mem_cons_of_mem _ hk)) with e | hin
          · have := hm.1 k hk
            rw [e] at this
            omega
          · exact hin
      rw [ih hl.2 hm.2 hrest]

/-- Canonical lists depend on the members only. -/
theorem canonical_congr {ls ms : List Literal} (h : ∀ k, k ∈ ls ↔ k ∈ ms) :
    canonical ls = canonical ms :=
  eq_of_ascending (ascending_canonical ls) (ascending_canonical ms) (by simpa using h)

/-- A strictly ascending list is canonical. -/
theorem canonical_eq_self {ls : List Literal} (h : Ascending ls) : canonical ls = ls :=
  eq_of_ascending (ascending_canonical ls) h (by simp)

end Cdcl.Literal
