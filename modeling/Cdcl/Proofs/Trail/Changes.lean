import Cdcl.Proofs.Trail.Valid

/-!
# Changes to a trail

Every operation on a trail keeps it valid. `push` and `openLevel` add to what is known, `undoTo` keeps
exactly the marks of the levels that stay (`mark?_undoTo`), and `clearReason` changes nothing but one
reason at level 0.
-/

namespace Cdcl.Trail
set_option autoImplicit false

variable {t t' : Trail} {l k : Literal} {v : Var} {m : Mark} {r : Option ClauseRef} {n : Nat}

/-! ## Pushing -/

theorem holds_push (hl : t.Covers l.var) :
    (t.push l r).holds k = true ↔ k = l ∨ t.holds k = true := by
  change (t.truth.put l true).getD k false = true ↔ _
  rw [LiteralMap.getD_put]
  by_cases hk : k = l
  · subst hk
    simp [hl.truth k.negative]
  · simp [hk, holds]

theorem holds_push_of_ne (h : k.var ≠ l.var) : (t.push l r).holds k = t.holds k :=
  LiteralMap.getD_put_of_ne fun hk => h (congrArg Literal.var hk)

theorem mark?_push_self (hl : t.Covers l.var) (hnone : t.mark? l.var = none) :
    (t.push l r).mark? l.var = some ⟨l.negative, t.level, r, t.literals.size⟩ := by
  have hneg : (t.push l r).holds (-l) = false := by
    rw [Bool.eq_false_iff, ne_eq, holds_push hl, (unassigned_iff.1 hnone).2]
    simp [Literal.neg_ne_self]
  rw [mark?_of_holds ((holds_push hl).2 (Or.inl rfl)) hneg, markOf]
  congr 2
  · exact VarMap.getD_put_self hl.levels
  · exact VarMap.getD_put_self hl.reasons
  · exact VarMap.getD_put_self hl.positions

theorem mark?_push_of_ne (h : v ≠ l.var) : (t.push l r).mark? v = t.mark? v := by
  refine mark?_congr (fun _ => holds_push_of_ne h) fun negative => ?_
  simp only [markOf, levelOf, reasonOf, Trail.push, VarMap.getD_put_of_ne h]

/-- A mark after a push is that of the new literal or an old one. -/
theorem mark?_push (hl : t.Covers l.var) (hnone : t.mark? l.var = none)
    (h : (t.push l r).mark? v = some m) :
    (v = l.var ∧ m = ⟨l.negative, t.level, r, t.literals.size⟩) ∨
      (v ≠ l.var ∧ t.mark? v = some m) := by
  by_cases hv : v = l.var
  · subst hv
    rw [mark?_push_self hl hnone] at h
    exact Or.inl ⟨rfl, (Option.some.inj h).symm⟩
  · rw [mark?_push_of_ne hv] at h
    exact Or.inr ⟨hv, h⟩

theorem mark?_push_of_some (hnone : t.mark? l.var = none) (h : t.mark? v = some m) :
    (t.push l r).mark? v = some m := by
  rw [mark?_push_of_ne, h]
  rintro rfl
  simp [h] at hnone

theorem sizes_push : (t.push l r).sizes = t.sizes := by
  simp [sizes, Trail.push]

theorem Valid.push (h : t.Valid) (hl : t.Names l) (hnone : t.mark? l.var = none) :
    (t.push l r).Valid := by
  have hcell := h.covers hl
  constructor
  case room =>
    unfold Sized
    rw [sizes_push]
    exact h.room
  case consistent =>
    intro k hk
    obtain ⟨hfree, hfree'⟩ := unassigned_iff.1 hnone
    rw [Bool.eq_false_iff, ne_eq, holds_push hcell]
    rintro (rfl | hneg)
    · rcases (holds_push hcell).1 hk with heq | hk
      · exact Literal.neg_ne_self k heq.symm
      · simp [hk] at hfree'
    · rcases (holds_push hcell).1 hk with rfl | hk
      · simp [hneg] at hfree'
      · simp [h.consistent hk] at hneg
  case marked =>
    intro i k hi
    simp only [Trail.push, Array.getElem?_push] at hi
    split at hi
    · next heq =>
      obtain rfl : l = k := Option.some.inj hi
      exact ⟨_, mark?_push_self hcell hnone, rfl, heq.symm⟩
    · obtain ⟨m, hm, hneg, hpos⟩ := h.marked hi
      exact ⟨m, mark?_push_of_some hnone hm, hneg, hpos⟩
  case placed =>
    intro v m hm
    simp only [Trail.push, Array.getElem?_push]
    rcases mark?_push hcell hnone hm with ⟨rfl, rfl⟩ | ⟨-, hm⟩
    · simp
    · have hlt := h.position_lt hm
      rw [if_neg (Nat.ne_of_lt hlt), h.placed hm]
  case levels =>
    intro v m hm
    rcases mark?_push hcell hnone hm with ⟨rfl, rfl⟩ | ⟨-, hm⟩
    · change t.level = t.limits.toList.countP (· ≤ t.literals.size)
      rw [List.countP_eq_length.2 fun n hn => by simpa using h.limited n hn, level,
        Array.length_toList]
    · exact h.levels hm
  case named =>
    intro v m hm
    rcases mark?_push hcell hnone hm with ⟨rfl, rfl⟩ | ⟨-, hm⟩
    · exact hl
    · exact h.named hm
  case cleared =>
    intro v hv
    have hne : v ≠ l.var := by
      rintro rfl
      simp [mark?_push_self hcell hnone] at hv
    rw [mark?_push_of_ne hne] at hv
    simp only [levelOf, reasonOf, Trail.push, VarMap.getD_put_of_ne hne]
    exact h.cleared hv
  case sorted => exact h.sorted
  case limited =>
    intro n hn
    have := h.limited n hn
    simp only [Trail.push, Array.size_push]
    omega
  case head_le =>
    have := h.head_le
    simp only [Trail.push, Array.size_push]
    omega

theorem Extends.push (hcell : t.Covers l.var) (hnone : t.mark? l.var = none)
    (hr : r.isSome = true) : t.Extends (t.push l r) where
  vars := rfl
  limits := rfl
  cells := sizes_push
  size := by simp [Trail.push]
  holds := fun hk => (holds_push hcell).2 (Or.inr hk)
  marks := mark?_push_of_some hnone
  fresh := by
    intro v m hnone' hm
    rcases mark?_push hcell hnone hm with ⟨rfl, rfl⟩ | ⟨-, hm⟩
    · exact ⟨hr, rfl, Nat.le_refl _⟩
    · simp [hnone'] at hm

/-! ## Opening levels -/

@[simp] theorem mark?_openLevel : t.openLevel.mark? v = t.mark? v := rfl

theorem Covers.openLevel (h : t.Covers v) : t.openLevel.Covers v :=
  ⟨h.truth, h.levels, h.reasons, h.positions⟩

@[simp] theorem level_openLevel : t.openLevel.level = t.level + 1 := Array.size_push _

theorem Valid.openLevel (h : t.Valid) : t.openLevel.Valid where
  room := h.room
  consistent := h.consistent
  marked := h.marked
  placed := h.placed
  levels := by
    intro v m hm
    have hlt := h.position_lt hm
    rw [h.levels hm]
    simp [levelAt, Trail.openLevel, Nat.not_le_of_lt hlt]
  named := h.named
  cleared := h.cleared
  sorted := by
    simp only [Trail.openLevel, Array.toList_push]
    rw [List.pairwise_append]
    refine ⟨h.sorted, List.pairwise_singleton _ _, fun n hn i hi => ?_⟩
    rw [List.mem_singleton.1 hi]
    exact h.limited n hn
  limited := by
    intro n hn
    simp only [Trail.openLevel, Array.toList_push, List.mem_append, List.mem_singleton] at hn
    rcases hn with hn | rfl
    · exact h.limited n hn
    · exact Nat.le_refl _
  head_le := h.head_le

theorem Caught.openLevel (h : t.Valid) (hhead : t.head = t.literals.size) :
    t.openLevel.Caught := by
  intro n hn
  simp only [Trail.openLevel, Array.toList_push, List.mem_append, List.mem_singleton] at hn
  change n ≤ t.head
  rcases hn with hn | rfl
  · exact hhead ▸ h.limited n hn
  · omega

/-! ## Taking back -/

/-- Unassigning literals clears three tables. -/
theorem foldl_unassign {ls : List Literal} : ls.foldl unassign t =
    { t with
      truth := ls.foldl (fun m l => m.put l false) t.truth
      reasons := (ls.map Literal.var).foldl (fun m v => m.put v none) t.reasons
      levels := (ls.map Literal.var).foldl (fun m v => m.put v 0) t.levels } := by
  induction ls generalizing t with
  | nil => rfl
  | cons l ls ih =>
    rw [List.foldl_cons, ih]
    rfl

theorem holds_foldl_unassign {ls : List Literal} :
    (ls.foldl unassign t).holds l = if l ∈ ls then false else t.holds l := by
  rw [foldl_unassign]
  exact LiteralMap.getD_foldl_put

theorem levelOf_foldl_unassign {ls : List Literal} :
    (ls.foldl unassign t).levelOf v = if v ∈ ls.map Literal.var then 0 else t.levelOf v := by
  rw [foldl_unassign]
  exact VarMap.getD_foldl_put

theorem reasonOf_foldl_unassign {ls : List Literal} :
    (ls.foldl unassign t).reasonOf v = if v ∈ ls.map Literal.var then none else t.reasonOf v := by
  rw [foldl_unassign]
  exact VarMap.getD_foldl_put

theorem sizes_foldl_unassign {ls : List Literal} : (ls.foldl unassign t).sizes = t.sizes := by
  induction ls generalizing t with
  | nil => rfl
  | cons l ls ih =>
    rw [List.foldl_cons, ih]
    simp [sizes, unassign]

/-- Unassigning literals that hold takes back the marks of their variables and no other. -/
theorem Valid.mark?_foldl_unassign (h : t.Valid) {ls : List Literal}
    (hls : ∀ l ∈ ls, t.holds l = true) :
    (ls.foldl unassign t).mark? v = if v ∈ ls.map Literal.var then none else t.mark? v := by
  split
  · next hv =>
    obtain ⟨l, hl, rfl⟩ := List.mem_map.1 hv
    rw [unassigned_iff, holds_foldl_unassign, holds_foldl_unassign, if_pos hl,
      h.consistent (hls l hl)]
    exact ⟨rfl, ite_self _⟩
  · next hv =>
    have hmem : ∀ negative, (⟨v, negative⟩ : Literal) ∉ ls :=
      fun _ hin => hv (List.mem_map.2 ⟨_, hin, rfl⟩)
    refine mark?_congr (fun negative => ?_) fun negative => ?_
    · rw [holds_foldl_unassign, if_neg (hmem negative)]
    · rw [markOf, markOf, levelOf_foldl_unassign, reasonOf_foldl_unassign, if_neg hv, if_neg hv,
        foldl_unassign]

theorem level_le_of_eq_none (h : t.limits[n]? = none) : t.level ≤ n :=
  Array.getElem?_eq_none_iff.1 h

theorem undoTo_of_le (h : t.level ≤ n) : t.undoTo n = (t, []) := by
  have hnone : t.limits[n]? = none := Array.getElem?_eq_none h
  simp [undoTo, hnone]

/-- What is taken back comes from the trail. -/
theorem mem_literals_of_undone (h : l ∈ (t.undoTo n).2) : l ∈ t.literals.toList := by
  unfold undoTo at h
  split at h
  · exact absurd h (by simp)
  · rw [List.mem_reverse, Array.toList_extract, List.extract_eq_take_drop] at h
    exact List.mem_of_mem_drop (List.mem_of_mem_take h)

theorem undoTo_holds :
    (t.undoTo n).1.holds l = if l ∈ (t.undoTo n).2 then false else t.holds l := by
  unfold undoTo
  split
  · simp
  · exact holds_foldl_unassign

theorem undoTo_levelOf : (t.undoTo n).1.levelOf v =
    if v ∈ (t.undoTo n).2.map Literal.var then 0 else t.levelOf v := by
  unfold undoTo
  split
  · simp
  · exact levelOf_foldl_unassign

theorem undoTo_reasonOf : (t.undoTo n).1.reasonOf v =
    if v ∈ (t.undoTo n).2.map Literal.var then none else t.reasonOf v := by
  unfold undoTo
  split
  · simp
  · exact reasonOf_foldl_unassign

theorem Valid.undoTo_mark? (h : t.Valid) : (t.undoTo n).1.mark? v =
    if v ∈ (t.undoTo n).2.map Literal.var then none else t.mark? v := by
  have hholds : ∀ l ∈ (t.undoTo n).2, t.holds l = true := fun l hl =>
    h.holds_iff_mem.2 (mem_literals_of_undone hl)
  unfold Trail.undoTo at hholds ⊢
  split
  · simp
  · next hcut =>
    rw [hcut] at hholds
    exact h.mark?_foldl_unassign hholds

/-- The limits around the one where a level begins. -/
theorem Valid.split_limits {cut : Nat} (h : t.Valid) (hcut : t.limits[n]? = some cut) :
    ∃ before after, t.limits.toList = before ++ cut :: after ∧ before.length = n ∧
      (∀ i ∈ before, i ≤ cut) ∧ ∀ i ∈ after, cut ≤ i := by
  have hn : n < t.limits.toList.length := by
    rw [Array.length_toList]
    exact (Array.getElem?_eq_some_iff.1 hcut).1
  have hget : t.limits.toList[n] = cut := by
    rw [Array.getElem_toList]
    exact (Array.getElem?_eq_some_iff.1 hcut).2
  have hsplit : t.limits.toList = t.limits.toList.take n ++ cut :: t.limits.toList.drop (n + 1) := by
    rw [← hget, ← List.drop_eq_getElem_cons hn, List.take_append_drop]
  have hsorted := h.sorted
  rw [hsplit, List.pairwise_append, List.pairwise_cons] at hsorted
  refine ⟨_, _, hsplit, List.length_take_of_le (Nat.le_of_lt hn), fun i hi => ?_,
    fun i hi => hsorted.2.1.1 i hi⟩
  exact hsorted.2.2 i hi cut List.mem_cons_self

/-- A literal belongs to the levels up to `n` if it lies before the place where the next begins. -/
theorem Valid.level_le_iff {cut : Nat} (h : t.Valid) (hcut : t.limits[n]? = some cut)
    (hm : t.mark? v = some m) : m.level ≤ n ↔ m.position < cut := by
  obtain ⟨before, after, hsplit, hlen, hbefore, hafter⟩ := h.split_limits hcut
  rw [h.levels hm, levelAt, hsplit, List.countP_append]
  constructor
  · intro hle
    by_contra hge
    have hall : before.countP (· ≤ m.position) = n := by
      rw [← hlen]
      refine List.countP_eq_length.2 fun i hi => ?_
      have := hbefore i hi
      simp only [decide_eq_true_eq]
      omega
    rw [hall, List.countP_cons, if_pos (by simpa using hge)] at hle
    omega
  · intro hlt
    have hnone : (cut :: after).countP (· ≤ m.position) = 0 := by
      refine List.countP_eq_zero.2 fun i hi => ?_
      have : cut ≤ i := by
        rcases List.mem_cons.1 hi with rfl | hi
        · exact Nat.le_refl _
        · exact hafter i hi
      simp only [decide_eq_true_eq]
      omega
    rw [hnone, ← hlen]
    exact List.countP_le_length

/-- Taking back levels keeps exactly the marks of the levels that stay. -/
theorem Valid.mark?_undoTo (h : t.Valid) :
    (t.undoTo n).1.mark? v = some m ↔ t.mark? v = some m ∧ m.level ≤ n := by
  cases hcut : t.limits[n]? with
  | none =>
    have hle : t.level ≤ n := level_le_of_eq_none hcut
    rw [undoTo_of_le hle]
    exact ⟨fun hm => ⟨hm, Nat.le_trans (h.level_le hm) hle⟩, And.left⟩
  | some cut =>
    have hgone : v ∈ (t.literals.extract cut t.literals.size).toList.reverse.map Literal.var ↔
        ∃ m, t.mark? v = some m ∧ cut ≤ m.position := by
      simp only [List.mem_map, List.mem_reverse, Array.mem_toList_iff, Array.mem_extract_iff_getElem]
      constructor
      · rintro ⟨l, ⟨i, hi, rfl⟩, rfl⟩
        have hlt : cut + i < t.literals.size := by omega
        obtain ⟨m, hm, -, hpos⟩ := h.marked (Array.getElem?_eq_getElem hlt)
        exact ⟨m, hm, by omega⟩
      · rintro ⟨m, hm, hpos⟩
        have hlt := h.position_lt hm
        have hat := h.placed hm
        rw [Array.getElem?_eq_getElem hlt] at hat
        refine ⟨_, ⟨m.position - cut, by omega, rfl⟩, ?_⟩
        simp only [Nat.add_sub_cancel' hpos, Option.some.inj hat]
    have hundone : (t.undoTo n).2 = (t.literals.extract cut t.literals.size).toList.reverse := by
      simp [undoTo, hcut]
    rw [h.undoTo_mark?, hundone]
    by_cases hin : v ∈ (t.literals.extract cut t.literals.size).toList.reverse.map Literal.var
    · rw [if_pos hin]
      obtain ⟨m', hm', hpos⟩ := hgone.1 hin
      constructor
      · intro hnone
        exact absurd hnone (by simp)
      · rintro ⟨hm, hle⟩
        obtain rfl : m' = m := Option.some.inj (hm'.symm.trans hm)
        have := (h.level_le_iff hcut hm).1 hle
        omega
    · rw [if_neg hin]
      refine ⟨fun hm => ⟨hm, (h.level_le_iff hcut hm).2 ?_⟩, And.left⟩
      by_contra hge
      exact hin (hgone.2 ⟨m, hm, by omega⟩)

theorem vars_undoTo : (t.undoTo n).1.vars = t.vars := by
  unfold undoTo
  split
  · rfl
  · simp only [foldl_unassign]

theorem sizes_undoTo : (t.undoTo n).1.sizes = t.sizes := by
  unfold undoTo
  split
  · rfl
  · exact sizes_foldl_unassign

theorem level_undoTo : (t.undoTo n).1.level = min t.level n := by
  unfold undoTo
  split
  · next hnone =>
    exact (Nat.min_eq_left (level_le_of_eq_none hnone)).symm
  · next cut hcut =>
    have : n < t.level := (Array.getElem?_eq_some_iff.1 hcut).1
    simp only [level, Array.size_extract] at this ⊢
    omega

theorem Valid.undoTo (h : t.Valid) : (t.undoTo n).1.Valid := by
  cases hcut : t.limits[n]? with
  | none =>
    rw [undoTo_of_le (level_le_of_eq_none hcut)]
    exact h
  | some cut =>
    obtain ⟨before, after, hsplit, hlen, hbefore, hafter⟩ := h.split_limits hcut
    have hle : cut ≤ t.literals.size := h.limited cut (by simp [hsplit])
    have hsize : (t.undoTo n).1.literals = t.literals.extract 0 cut := by simp [Trail.undoTo, hcut]
    have hlimits : (t.undoTo n).1.limits.toList = before := by
      simp only [Trail.undoTo, hcut, Array.toList_extract, List.extract_eq_take_drop]
      simp [hsplit, ← hlen]
    constructor
    case room =>
      unfold Sized
      rw [vars_undoTo, sizes_undoTo]
      exact h.room
    case consistent =>
      intro l hl
      rw [undoTo_holds] at hl ⊢
      split at hl
      · exact absurd hl (by simp)
      · rw [h.consistent hl]
        exact ite_self _
    case marked =>
      intro i k hi
      rw [hsize, Array.getElem?_extract] at hi
      split at hi
      · next hlt =>
        rw [Nat.zero_add] at hi
        obtain ⟨m, hm, hneg, hpos⟩ := h.marked hi
        refine ⟨m, h.mark?_undoTo.2 ⟨hm, (h.level_le_iff hcut hm).2 ?_⟩, hneg, hpos⟩
        omega
      · exact absurd hi (by simp)
    case placed =>
      intro v m hm
      obtain ⟨hm, hlev⟩ := h.mark?_undoTo.1 hm
      have hlt := (h.level_le_iff hcut hm).1 hlev
      rw [hsize, Array.getElem?_extract, if_pos (by omega), Nat.zero_add, h.placed hm]
    case levels =>
      intro v m hm
      obtain ⟨hm, hlev⟩ := h.mark?_undoTo.1 hm
      have hlt := (h.level_le_iff hcut hm).1 hlev
      have hnone : (cut :: after).countP (· ≤ m.position) = 0 := by
        refine List.countP_eq_zero.2 fun i hi => ?_
        have : cut ≤ i := by
          rcases List.mem_cons.1 hi with rfl | hi
          · exact Nat.le_refl _
          · exact hafter i hi
        simp only [decide_eq_true_eq]
        omega
      rw [h.levels hm, levelAt, levelAt, hlimits, hsplit, List.countP_append, hnone, Nat.add_zero]
    case named =>
      intro v m hm
      have := h.named (h.mark?_undoTo.1 hm).1
      unfold Names at this ⊢
      rwa [vars_undoTo]
    case cleared =>
      intro v hv
      rw [undoTo_levelOf, undoTo_reasonOf]
      rw [h.undoTo_mark?] at hv
      split
      · exact ⟨rfl, rfl⟩
      · next hkept =>
        rw [if_neg hkept] at hv
        exact h.cleared hv
    case sorted =>
      have := h.sorted
      rw [hsplit, List.pairwise_append] at this
      rw [hlimits]
      exact this.1
    case limited =>
      intro i hi
      rw [hlimits] at hi
      have := hbefore i hi
      rw [hsize, Array.size_extract]
      omega
    case head_le =>
      have hhead : (t.undoTo n).1.head = min t.head cut := by simp [Trail.undoTo, hcut]
      rw [hsize, Array.size_extract, hhead]
      omega

theorem Valid.mark?_undoTo_eq (h : t.Valid) (hm : t.mark? v = some m) (hlev : m.level ≤ n) :
    (t.undoTo n).1.mark? v = some m := h.mark?_undoTo.2 ⟨hm, hlev⟩

theorem Valid.holds_undoTo (h : t.Valid) :
    (t.undoTo n).1.holds l = true ↔ t.holds l = true ∧ t.levelOf l.var ≤ n := by
  rw [h.undoTo.holds_iff, h.holds_iff]
  constructor
  · rintro ⟨m, hm, hneg⟩
    obtain ⟨hm, hlev⟩ := h.mark?_undoTo.1 hm
    exact ⟨⟨m, hm, hneg⟩, (levelOf_eq hm).symm ▸ hlev⟩
  · rintro ⟨⟨m, hm, hneg⟩, hlev⟩
    rw [levelOf_eq hm] at hlev
    exact ⟨m, h.mark?_undoTo.2 ⟨hm, hlev⟩, hneg⟩

/-- What stays and was taken for propagation counts as taken. -/
theorem Valid.lt_head_undoTo (h : t.Valid) (hm : (t.undoTo n).1.mark? v = some m) :
    m.position < (t.undoTo n).1.head ↔ m.position < t.head := by
  have hlt := h.undoTo.position_lt hm
  cases hcut : t.limits[n]? with
  | none => rw [undoTo_of_le (level_le_of_eq_none hcut)]
  | some cut =>
    have hle : cut ≤ t.literals.size := h.limited cut
      (Array.mem_toList_iff.2 (Array.mem_of_getElem? hcut))
    have hhead : (t.undoTo n).1.head = min t.head cut := by simp [Trail.undoTo, hcut]
    have hsize : (t.undoTo n).1.literals.size = cut := by
      simp [Trail.undoTo, hcut, Nat.min_eq_left hle]
    rw [hhead]
    omega

theorem Caught.undoTo (hc : t.Caught) (h : t.Valid) : (t.undoTo n).1.Caught := by
  cases hcut : t.limits[n]? with
  | none =>
    rw [undoTo_of_le (level_le_of_eq_none hcut)]
    exact hc
  | some cut =>
    obtain ⟨before, after, hsplit, hlen, hbefore, -⟩ := h.split_limits hcut
    intro i hi
    simp only [Trail.undoTo, hcut, Array.toList_extract, List.extract_eq_take_drop] at hi ⊢
    have hin : i ∈ before := by simpa [hsplit, ← hlen] using hi
    have h1 := hbefore i hin
    have h2 := hc i (by simp [hsplit, hin])
    omega

/-- The literals that are taken back are the true ones of the levels above. -/
theorem Valid.mem_undone (h : t.Valid) :
    l ∈ (t.undoTo n).2 ↔ t.holds l = true ∧ n < t.levelOf l.var := by
  cases hcut : t.limits[n]? with
  | none =>
    have hle : t.level ≤ n := level_le_of_eq_none hcut
    rw [undoTo_of_le hle]
    constructor
    · intro hin
      exact absurd hin (by simp)
    · rintro ⟨hl, hlt⟩
      obtain ⟨m, hm⟩ := exists_mark hl
      rw [levelOf_eq hm] at hlt
      have := h.level_le hm
      omega
  | some cut =>
    have hmem : l ∈ (t.undoTo n).2 ↔ ∃ i, cut ≤ i ∧ t.literals[i]? = some l := by
      simp only [Trail.undoTo, hcut, List.mem_reverse, Array.mem_toList_iff,
        Array.mem_extract_iff_getElem]
      constructor
      · rintro ⟨i, hi, rfl⟩
        exact ⟨cut + i, by omega, Array.getElem?_eq_getElem (by omega)⟩
      · rintro ⟨i, hi, hl⟩
        obtain ⟨hlt, hl⟩ := Array.getElem?_eq_some_iff.1 hl
        refine ⟨i - cut, by omega, ?_⟩
        simp only [Nat.add_sub_cancel' hi, hl]
    rw [hmem]
    constructor
    · rintro ⟨i, hi, hl⟩
      obtain ⟨m, hm, hneg, hpos⟩ := h.marked hl
      refine ⟨holds_of_mark hm hneg, ?_⟩
      rw [levelOf_eq hm, ← Nat.not_le, h.level_le_iff hcut hm]
      omega
    · rintro ⟨hl, hlt⟩
      obtain ⟨m, hm, hneg⟩ := h.holds_iff.1 hl
      rw [levelOf_eq hm, ← Nat.not_le, h.level_le_iff hcut hm] at hlt
      exact ⟨m.position, by omega, h.getElem?_of_mark hm hneg⟩

/-! ## Other changes -/

theorem Valid.withHead (h : t.Valid) (hn : n ≤ t.literals.size) : { t with head := n }.Valid where
  room := h.room
  consistent := h.consistent
  marked := h.marked
  placed := h.placed
  levels := h.levels
  named := h.named
  cleared := h.cleared
  sorted := h.sorted
  limited := h.limited
  head_le := hn

theorem next_eq_some (h : t.next = some (l, t')) :
    t.literals[t.head]? = some l ∧ t' = { t with head := t.head + 1 } := by
  unfold next at h
  split at h
  · next k hk =>
    obtain ⟨rfl, rfl⟩ := Prod.mk.inj (Option.some.inj h)
    exact ⟨hk, rfl⟩
  · exact absurd h (by simp)

theorem Valid.next_eq_none (h : t.Valid) (hnext : t.next = none) : t.head = t.literals.size := by
  unfold next at hnext
  split at hnext
  · exact absurd hnext (by simp)
  · next hnone =>
    have h1 := h.head_le
    have h2 : t.literals.size ≤ t.head := by simpa using hnone
    omega

/-- Growing changes what the tables hold of no variable. -/
theorem growTo_eq_ok (h : t.growTo n = .ok t') : (∀ v, t'.mark? v = t.mark? v) ∧ t'.vars = n ∧
    t'.literals = t.literals ∧ t'.limits = t.limits ∧ t'.head = t.head ∧
    (∀ l, t'.holds l = t.holds l) ∧ (∀ v, t'.levelOf v = t.levelOf v) ∧
    ∀ v, t'.reasonOf v = t.reasonOf v := by
  obtain ⟨truth, htruth, h⟩ := bind_eq_ok_iff.1 h
  obtain ⟨levels, hlevels, h⟩ := bind_eq_ok_iff.1 h
  obtain ⟨reasons, hreasons, h⟩ := bind_eq_ok_iff.1 h
  obtain ⟨positions, hpositions, h⟩ := bind_eq_ok_iff.1 h
  obtain rfl : _ = t' := Except.ok.inj h
  have hholds := (LiteralMap.grow_eq_ok htruth).1
  have hlevel := (VarMap.grow_eq_ok hlevels).1
  have hreason := (VarMap.grow_eq_ok hreasons).1
  have hposition := (VarMap.grow_eq_ok hpositions).1
  refine ⟨fun v => mark?_congr (fun _ => hholds _) fun negative => ?_, rfl, rfl, rfl, rfl, hholds,
    hlevel, hreason⟩
  simp only [markOf, levelOf, reasonOf, hlevel, hreason, hposition]

theorem sized_growTo {m : Nat} (h : t.growTo n = .ok t') (hm : t.Sized m) :
    t'.Sized (max m (n + 1)) := by
  obtain ⟨truth, htruth, h⟩ := bind_eq_ok_iff.1 h
  obtain ⟨levels, hlevels, h⟩ := bind_eq_ok_iff.1 h
  obtain ⟨reasons, hreasons, h⟩ := bind_eq_ok_iff.1 h
  obtain ⟨positions, hpositions, h⟩ := bind_eq_ok_iff.1 h
  obtain rfl : _ = t' := Except.ok.inj h
  simp only [Sized, sizes, Prod.mk.injEq] at hm ⊢
  rw [(LiteralMap.grow_eq_ok htruth).2, (VarMap.grow_eq_ok hlevels).2,
    (VarMap.grow_eq_ok hreasons).2, (VarMap.grow_eq_ok hpositions).2]
  omega

theorem Valid.growTo (h : t.Valid) (hn : t.vars ≤ n) (hgrow : t.growTo n = .ok t') : t'.Valid := by
  obtain ⟨hmark, hvars, hlits, hlimits, hhead, hholds, hlevel, hreason⟩ := growTo_eq_ok hgrow
  constructor
  case room =>
    rw [hvars]
    refine Or.inl ?_
    rcases h.room with hroom | ⟨hzero, hroom⟩
    · simpa [Nat.max_eq_right hn] using sized_growTo hgrow hroom
    · simpa using sized_growTo hgrow hroom
  case consistent =>
    intro l hl
    rw [hholds] at hl ⊢
    exact h.consistent hl
  case marked =>
    intro i k hi
    rw [hmark]
    exact h.marked (hlits ▸ hi)
  case placed =>
    intro v m hm
    rw [hlits]
    exact h.placed (hmark v ▸ hm)
  case levels =>
    intro v m hm
    rw [levelAt, hlimits]
    exact h.levels (hmark v ▸ hm)
  case named =>
    intro v m hm
    have := h.named (hmark v ▸ hm)
    unfold Names at this ⊢
    rw [hvars]
    omega
  case cleared =>
    intro v hv
    rw [hlevel, hreason]
    exact h.cleared (hmark v ▸ hv)
  case sorted => exact hlimits ▸ h.sorted
  case limited => exact hlimits ▸ hlits ▸ h.limited
  case head_le => exact hhead ▸ hlits ▸ h.head_le

theorem clearReason_eq_ok (h : t.clearReason v = .ok t') : t.levelOf v = 0 ∧
    (∀ w, t'.reasonOf w = if w = v then none else t.reasonOf w) ∧ t'.sizes = t.sizes ∧
    t' = { t with reasons := t'.reasons } := by
  obtain ⟨_, hcell, h⟩ := bind_eq_ok_iff.1 h
  obtain ⟨_, hlev, h⟩ := bind_eq_ok_iff.1 h
  obtain rfl : _ = t' := Except.ok.inj h
  have hlt := (requireVar_eq_ok hcell).2.1
  refine ⟨by simpa using require_eq_ok_iff.1 hlev, fun w => ?_, by simp [sizes], rfl⟩
  change VarMap.getD _ w none = _
  rw [VarMap.getD_put]
  simp [hlt, reasonOf]

/-- The trails are the same, but some reasons at level 0 are forgotten. -/
structure Forgets (t t' : Trail) : Prop where
  same : t' = { t with reasons := t'.reasons }
  cells : t'.sizes = t.sizes
  reasons : ∀ v, t'.reasonOf v = t.reasonOf v ∨ (t.levelOf v = 0 ∧ t'.reasonOf v = none)

namespace Forgets

theorem refl (t : Trail) : t.Forgets t := ⟨rfl, rfl, fun _ => Or.inl rfl⟩

theorem of_clearReason (h : t.clearReason v = .ok t') : t.Forgets t' := by
  obtain ⟨hlev, hreason, hcells, hsame⟩ := clearReason_eq_ok h
  refine ⟨hsame, hcells, fun w => ?_⟩
  rw [hreason]
  split
  · next hw => exact Or.inr ⟨hw ▸ hlev, rfl⟩
  · exact Or.inl rfl

variable (h : t.Forgets t')
include h

theorem literals : t'.literals = t.literals := by rw [h.same]

theorem limits : t'.limits = t.limits := by rw [h.same]

theorem vars : t'.vars = t.vars := by rw [h.same]

theorem head : t'.head = t.head := by rw [h.same]

theorem level : t'.level = t.level := congrArg Array.size h.limits

theorem holds_eq : t'.holds l = t.holds l := by
  rw [h.same]
  rfl

theorem levelOf_eq : t'.levelOf v = t.levelOf v := by
  rw [h.same]
  rfl

theorem trans {t'' : Trail} (h' : t'.Forgets t'') : t.Forgets t'' where
  same := by
    rw [h'.same, h.same]
  cells := h'.cells.trans h.cells
  reasons := by
    intro v
    rcases h'.reasons v with hv' | ⟨hlev', hv'⟩
    · rw [hv']
      exact h.reasons v
    · exact Or.inr ⟨h.levelOf_eq.symm.trans hlev', hv'⟩

theorem markOf_eq (negative : Bool) :
    t'.markOf v negative = { t.markOf v negative with reason := t'.reasonOf v } := by
  rw [h.same]
  rfl

theorem marks (v : Var) : t'.mark? v = t.mark? v ∨
    ∃ m, t.mark? v = some m ∧ m.level = 0 ∧ t'.mark? v = some { m with reason := none } := by
  have hmark : t'.mark? v = (t.mark? v).map fun m => { m with reason := t'.reasonOf v } := by
    unfold mark?
    rw [h.holds_eq, h.holds_eq, h.markOf_eq, h.markOf_eq]
    split
    · rfl
    · split <;> rfl
  cases hm : t.mark? v with
  | none =>
    rw [hm] at hmark
    exact Or.inl hmark
  | some m =>
    rw [hm] at hmark
    rcases h.reasons v with hv | ⟨hlev, hv⟩
    · rw [hv, reasonOf_eq hm] at hmark
      exact Or.inl hmark
    · rw [hv] at hmark
      exact Or.inr ⟨m, rfl, Trail.levelOf_eq hm ▸ hlev, hmark⟩

/-- A mark of the later trail is one of the earlier, but for the reason. -/
theorem old (hm : t'.mark? v = some m) : ∃ n, t.mark? v = some n ∧ n.negative = m.negative ∧
    n.level = m.level ∧ n.position = m.position ∧ (m.reason = n.reason ∨ m.reason = none) := by
  rcases h.marks v with hv | ⟨n, hn, -, hv⟩
  · exact ⟨m, hv ▸ hm, rfl, rfl, rfl, Or.inl rfl⟩
  · obtain rfl := Option.some.inj (hm.symm.trans hv)
    exact ⟨n, hn, rfl, rfl, rfl, Or.inr rfl⟩

theorem new (hm : t.mark? v = some m) : ∃ n, t'.mark? v = some n ∧ n.negative = m.negative ∧
    n.level = m.level ∧ n.position = m.position := by
  rcases h.marks v with hv | ⟨n, hn, -, hv⟩
  · exact ⟨m, hv ▸ hm, rfl, rfl, rfl⟩
  · obtain rfl := Option.some.inj (hm.symm.trans hn)
    exact ⟨_, hv, rfl, rfl, rfl⟩

theorem valid (ht : t.Valid) : t'.Valid where
  room := by
    unfold Sized
    rw [h.cells, h.vars]
    exact ht.room
  consistent := by
    intro l hl
    rw [h.holds_eq] at hl ⊢
    exact ht.consistent hl
  marked := by
    intro i l hi
    obtain ⟨m, hm, hneg, hpos⟩ := ht.marked (h.literals ▸ hi)
    obtain ⟨n, hn, hneg', -, hpos'⟩ := h.new hm
    exact ⟨n, hn, hneg'.trans hneg, hpos'.trans hpos⟩
  placed := by
    intro v m hm
    obtain ⟨n, hn, hneg, -, hpos, -⟩ := h.old hm
    rw [h.literals, ← hneg, ← hpos]
    exact ht.placed hn
  levels := by
    intro v m hm
    obtain ⟨n, hn, -, hlev, hpos, -⟩ := h.old hm
    rw [levelAt, h.limits, ← hlev, ← hpos]
    exact ht.levels hn
  named := by
    intro v m hm
    obtain ⟨n, hn, hneg, -⟩ := h.old hm
    have := ht.named hn
    rw [hneg] at this
    unfold Names at this ⊢
    rwa [h.vars]
  cleared := by
    intro v hv
    have hnone : t.mark? v = none := by
      rcases h.marks v with hsame | ⟨m, -, -, hm⟩
      · exact hsame ▸ hv
      · exact absurd (hm.symm.trans hv) (by simp)
    obtain ⟨hlev, hreason⟩ := ht.cleared hnone
    refine ⟨h.levelOf_eq.trans hlev, ?_⟩
    rcases h.reasons v with hv | ⟨-, hv⟩
    · exact hv.trans hreason
    · exact hv
  sorted := h.limits ▸ ht.sorted
  limited := h.limits ▸ h.literals ▸ ht.limited
  head_le := h.head ▸ h.literals ▸ ht.head_le

end Forgets

end Cdcl.Trail
