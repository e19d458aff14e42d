import Mathlib.Order.WithBot
import Cdcl.Proofs.Order.Heap

/-!
# Sifting restores the order of a heap

The `key` of a place is the score of the variable there; a place beyond the queue has the lowest key
of all, so nothing has to be said of how many children a place has. A heap is `Ordered` if no key is
above the one at the `parent` place. While a variable is sifted this fails in one place only:
`RisesFrom` says that the variable there may be too high for its parent, `SinksFrom` that it may be too
low for its children. In both cases its children are in order with its parent, which is what the
next swap needs.
-/

namespace Cdcl.Order.Heap
set_option autoImplicit false

variable {α : Type} {h : Heap α} {v : Var} {i j n : Nat}

/-- The place that a place is compared with on the way up. Place 0 is its own parent. -/
def parent (i : Nat) : Nat := (i - 1) / 2

/-- The score of a variable, lowest if it has none. -/
def rank (h : Heap α) (v : Var) : WithBot α := (h.scores.cells[v.id]?).elim ⊥ WithBot.some

/-- The score at a place, lowest if the place is not taken. -/
def key (h : Heap α) (i : Nat) : WithBot α := (h.queue[i]?).elim ⊥ h.rank

/-- Every queued variable has a score. -/
def Scored (h : Heap α) : Prop := ∀ i < h.queue.size, h.key i ≠ ⊥

theorem key_of_queue (hv : h.queue[i]? = some v) : h.key i = h.rank v := by
  rw [key, hv, Option.elim_some]

theorem key_of_size_le (hi : h.queue.size ≤ i) : h.key i = ⊥ := by
  rw [key, Array.getElem?_eq_none hi, Option.elim_none]

theorem key_eq_scoreAt (h : Heap α) (i : Nat) : h.key i = (h.scoreAt? i).elim ⊥ WithBot.some := by
  unfold key scoreAt? rank
  cases h.queue[i]? <;> rfl

theorem rank_congr {h' : Heap α} (hs : h'.scores = h.scores) : h'.rank = h.rank := by
  unfold rank
  rw [hs]

/-! ## Swaps -/

theorem key_swap (hi : i < h.queue.size) (hj : j < h.queue.size) (x : Nat) :
    (h.swap i j).key x = if x = j then h.key i else if x = i then h.key j else h.key x := by
  have hv : h.queue[i]? = some h.queue[i] := Array.getElem?_eq_getElem hi
  have hw : h.queue[j]? = some h.queue[j] := Array.getElem?_eq_getElem hj
  unfold key
  rw [queue_swap hv hw, rank_congr scores_swap, hv, hw]
  split
  · rfl
  · split <;> rfl

theorem Scored.swap (hs : h.Scored) (hi : i < h.queue.size) (hj : j < h.queue.size) :
    (h.swap i j).Scored := by
  intro x hx
  rw [size_swap] at hx
  rw [key_swap hi hj]
  split
  · exact hs i hi
  · split
    · exact hs j hj
    · exact hs x hx

variable [LinearOrder α]

theorem higher_iff (hs : h.Scored) (hj : j < h.queue.size) :
    h.higher i j = true ↔ h.key j < h.key i := by
  obtain ⟨b, hb⟩ : ∃ b, h.scoreAt? j = some b := by
    rw [← Option.isSome_iff_exists, ← Option.ne_none_iff_isSome]
    intro hnone
    exact hs j hj (by rw [key_eq_scoreAt, hnone, Option.elim_none])
  rw [key_eq_scoreAt, key_eq_scoreAt, higher, hb]
  cases h.scoreAt? i with
  | none => simp
  | some a => simp

/-! ## Order -/

/-- No key is above the one of its parent. -/
def Ordered (h : Heap α) : Prop := ∀ i, h.key i ≤ h.key (parent i)

/-- Only at place `i` the key may be above the one of its parent. -/
structure RisesFrom (h : Heap α) (i : Nat) : Prop where
  others : ∀ j, j ≠ i → h.key j ≤ h.key (parent j)
  children : ∀ j, parent j = i → h.key j ≤ h.key (parent i)

/-- Only the children of place `i` may have keys above its own. -/
structure SinksFrom (h : Heap α) (i : Nat) : Prop where
  others : ∀ j, parent j ≠ i → h.key j ≤ h.key (parent j)
  children : 0 < i → ∀ j, parent j = i → h.key j ≤ h.key (parent i)

theorem Ordered.le_top (ho : h.Ordered) (i : Nat) : h.key i ≤ h.key 0 := by
  induction i using Nat.strongRecOn with
  | ind i ih =>
    rcases Nat.eq_zero_or_pos i with rfl | hpos
    · exact le_rfl
    · exact (ho i).trans (ih (parent i) (by unfold parent; omega))

/-! ## Sifting up -/

/-- A swap with the parent moves the place where the order may fail one step up. -/
theorem RisesFrom.swap (hr : h.RisesFrom i) (hi : i < h.queue.size) (hpos : 0 < i)
    (hlt : h.key (parent i) < h.key i) : (h.swap i (parent i)).RisesFrom (parent i) := by
  have hparent : parent i < i := by unfold parent; omega
  have hkey := key_swap hi (Nat.lt_trans hparent hi)
  constructor
  · intro j hj
    rw [hkey j, hkey (parent j), if_neg hj]
    by_cases hji : j = i
    · rw [if_pos hji, hji, if_pos rfl]
      exact hlt.le
    rw [if_neg hji]
    split
    · -- a sibling gets the risen variable as its parent
      next hpj => exact (hr.others j hji).trans (hpj ▸ hlt.le)
    · split
      · -- a child of `i` gets the variable that was its grandparent
        next hpj => exact hr.children j hpj
      · exact hr.others j hji
  · have hup : h.key (parent i) ≤ (h.swap i (parent i)).key (parent (parent i)) := by
      rw [hkey]
      split
      · exact hlt.le
      · rw [if_neg (by unfold parent; omega)]
        exact hr.others (parent i) (Nat.ne_of_lt hparent)
    intro j hj
    by_cases hjp : j = parent i
    · -- only the root is its own parent
      rw [hjp] at hj
      rw [hjp, hj]
    rw [hkey j, if_neg hjp]
    split
    · exact hup
    · next hji => exact (hr.others j hji).trans (hj.symm ▸ hup)

/-- Sifting up restores the order if only the sifted variable was too high. -/
theorem RisesFrom.siftUp (hr : h.RisesFrom i) (hs : h.Scored) (hi : i < h.queue.size) :
    (h.siftUp i).Ordered := by
  induction i using Nat.strongRecOn generalizing h with
  | ind i ih =>
    rw [Heap.siftUp]
    split
    · next hroot =>
      intro j
      rcases Nat.eq_zero_or_pos j with rfl | hpos
      · exact le_rfl
      · exact hr.others j (by omega)
    · next hroot =>
      have hpos : 0 < i := Nat.pos_of_ne_zero hroot
      have hparent : parent i < i := by unfold parent; omega
      have hp : parent i < h.queue.size := Nat.lt_trans hparent hi
      dsimp only
      split
      · next hhigher =>
        have hlt : h.key (parent i) < h.key i := (higher_iff hs hp).1 hhigher
        exact ih (parent i) hparent (hr.swap hi hpos hlt) (hs.swap hi hp) (size_swap.symm ▸ hp)
      · next hhigher =>
        have hle : h.key i ≤ h.key (parent i) :=
          not_lt.1 fun hlt => hhigher ((higher_iff hs hp).2 hlt)
        intro j
        by_cases hji : j = i
        · exact hji ▸ hle
        · exact hr.others j hji

/-! ## Sifting down -/

/-- The higher one of two places, the second one unless the first is above it. -/
theorem pick_spec (hs : h.Scored) (hj : j < h.queue.size) {best : Nat}
    (hb : (if h.higher i j then i else j) = best) :
    best < h.queue.size ∧ (best = j ∨ best = i) ∧ h.key j ≤ h.key best ∧ h.key i ≤ h.key best := by
  split at hb
  · next hhigher =>
    subst hb
    have hlt : h.key j < h.key i := (higher_iff hs hj).1 hhigher
    have hi : i < h.queue.size := by
      by_contra hge
      rw [key_of_size_le (Nat.le_of_not_lt hge)] at hlt
      exact not_lt_bot hlt
    exact ⟨hi, Or.inr rfl, hlt.le, le_rfl⟩
  · next hhigher =>
    subst hb
    exact ⟨hj, Or.inl rfl, le_rfl, not_lt.1 fun hlt => hhigher ((higher_iff hs hj).2 hlt)⟩

/-- The highest place among a place and its children is one of them, and none of them is above it. -/
theorem highestOf_spec (hs : h.Scored) (hi : i < h.queue.size) {best : Nat}
    (hb : h.highestOf i = best) :
    best < h.queue.size ∧ (best = i ∨ i < best ∧ parent best = i) ∧ h.key i ≤ h.key best ∧
      ∀ j, parent j = i → h.key j ≤ h.key best := by
  obtain ⟨hsize₁, hplace₁, hself₁, hleft⟩ := pick_spec (i := 2 * i + 1) hs hi rfl
  obtain ⟨hsize, hplace, hself, hright⟩ := pick_spec (i := 2 * i + 2) hs hsize₁ hb
  have hchild : best = i ∨ best = 2 * i + 1 ∨ best = 2 * i + 2 := by
    rcases hplace with rfl | rfl
    · exact hplace₁.imp_right Or.inl
    · exact Or.inr (Or.inr rfl)
  refine ⟨hsize, ?_, hself₁.trans hself, fun j hj => ?_⟩
  · rcases hchild with rfl | rfl | rfl
    · exact Or.inl rfl
    all_goals exact Or.inr ⟨by omega, by unfold parent; omega⟩
  · have hcases : j = i ∨ j = 2 * i + 1 ∨ j = 2 * i + 2 := by unfold parent at hj; omega
    rcases hcases with rfl | rfl | rfl
    · exact hself₁.trans hself
    · exact hleft.trans hself
    · exact hright

theorem highestOf_of_size_le (hi : h.queue.size ≤ i) : h.highestOf i = i := by
  have hfree : ∀ c j, i ≤ c → h.higher c j = false := by
    intro c j hc
    rw [higher, scoreAt?, Array.getElem?_eq_none (Nat.le_trans hi hc)]
  simp only [highestOf, hfree (2 * i + 1) _ (by omega), hfree (2 * i + 2) _ (by omega),
    Bool.false_eq_true, if_false]

/-- A swap with the highest child moves the place where the order may fail one step down. -/
theorem SinksFrom.swap (hk : h.SinksFrom i) (hi : i < h.queue.size) (hj : j < h.queue.size)
    (hij : i < j) (hparent : parent j = i) (hle : h.key i ≤ h.key j)
    (hhighest : ∀ c, parent c = i → h.key c ≤ h.key j) : (h.swap i j).SinksFrom j := by
  have hkey := key_swap hi hj
  constructor
  · intro c hc
    rw [hkey c, hkey (parent c), if_neg hc]
    by_cases hcj : c = j
    · rw [if_pos hcj, hcj, if_pos hparent]
      exact hle
    rw [if_neg hcj]
    by_cases hci : c = i
    · -- the risen child is in order with the parent of `i`, if there is one
      rw [if_pos hci]
      rcases Nat.eq_zero_or_pos i with hzero | hpos
      · rw [if_pos (by unfold parent; omega)]
      · rw [if_neg (by unfold parent; omega), hci]
        exact hk.children hpos j hparent
    rw [if_neg hci]
    split
    · next hpc => exact hhighest c hpc
    · next hpc => exact hk.others c hpc
  · intro _ c hc
    rw [hkey, hkey, if_neg (by unfold parent at *; omega), if_neg (by unfold parent at *; omega),
      if_neg (by omega), if_pos hparent]
    exact hc ▸ hk.others c (by omega)

/-- Sifting down restores the order if only the sifted variable was too low. -/
theorem SinksFrom.siftDownFrom (hk : h.SinksFrom i) (hs : h.Scored) (hn : h.queue.size ≤ n + i) :
    (siftDownFrom n h i).Ordered := by
  -- past the end of the queue there are no children
  have hleaf {h : Heap α} {i : Nat} (hk : h.SinksFrom i) (hend : h.queue.size ≤ i) : h.Ordered := by
    intro j
    by_cases hj : parent j = i
    · rw [key_of_size_le (Nat.le_trans hend (by unfold parent at hj; omega))]
      exact bot_le
    · exact hk.others j hj
  induction n generalizing h i with
  | zero =>
    have hend : h.queue.size ≤ i := by omega
    exact hleaf hk hend
  | succ n ih =>
    rw [Heap.siftDownFrom]
    rcases Nat.lt_or_ge i h.queue.size with hi | hend
    · obtain ⟨hbest, hplace, hself, hhighest⟩ := highestOf_spec hs hi rfl
      split
      · next hstay =>
        rw [hstay] at hhighest
        intro j
        by_cases hj : parent j = i
        · exact hj.symm ▸ hhighest j hj
        · exact hk.others j hj
      · next hmove =>
        obtain ⟨hlt, hparent⟩ := hplace.resolve_left hmove
        exact ih (hk.swap hi hbest hlt hparent hself hhighest) (hs.swap hi hbest)
          (by rw [size_swap]; omega)
    · rw [if_pos (highestOf_of_size_le hend)]
      exact hleaf hk hend

end Cdcl.Order.Heap
