import Cdcl.Proofs.Order.Shape
import Cdcl.Proofs.Order.Sifting

/-!
# The invariant of a heap

A heap is `Sound` if its two tables are inverse to each other, it is ordered by the scores, and every
queued variable has one. Before it sifts, each operation leaves the order broken in one place at most:
a variable at the end of the queue or with a higher score may be too high, the one that stands in for
the top may be too low. The sift that follows repairs that, so every operation keeps the invariant, for
scores from any linear order.
-/

namespace Cdcl.Order.Heap
set_option autoImplicit false

variable {α : Type} {h h' : Heap α} {u v : Var} {vars : Nat} {a zero : α} {raise shrink : α → α}

/-- The variable has a score and a place. -/
def Names (h : Heap α) (v : Var) : Prop := 1 ≤ v.id ∧ v.id < h.scores.cells.size

instance (h : Heap α) (v : Var) : Decidable (h.Names v) := inferInstanceAs (Decidable (_ ∧ _))

theorem Linked.nodup (hl : h.Linked) : h.queue.toList.Nodup := by
  refine List.nodup_iff_getElem?_ne_getElem?.2 fun i j hij hj he => ?_
  have hv : h.queue[j]? = some h.queue[j] := Array.getElem?_eq_getElem (by simpa using hj)
  rw [Array.getElem?_toList, Array.getElem?_toList] at he
  exact Nat.ne_of_lt hij (hl.unique (he.trans hv) hv)

/-! ## Keys before sifting -/

theorem rank_of_get (ha : h.scores.get v = .ok a) : h.rank v = a := by
  rw [rank, VarMap.get_eq_ok.1 ha, Option.elim_some]

theorem scored_of_queues (hq : ∀ v, h.Queues v → v.id < h.scores.cells.size) : h.Scored := by
  intro i hi
  have hv : h.queue[i]? = some h.queue[i] := Array.getElem?_eq_getElem hi
  rw [key_of_queue hv, rank, Array.getElem?_eq_getElem (hq _ ⟨i, hv⟩)]
  exact WithBot.coe_ne_bot

/-- If the queue stays, the keys change as the scores of the queued variables do. -/
theorem key_of_rank {f : WithBot α → WithBot α} (hqueue : h'.queue = h.queue) (hbot : f ⊥ = ⊥)
    (hrank : ∀ v, h.Queues v → h'.rank v = f (h.rank v)) (x : Nat) : h'.key x = f (h.key x) := by
  unfold key
  rw [hqueue]
  rcases hv : h.queue[x]? with _ | v
  · exact hbot.symm
  · exact hrank v ⟨x, hv⟩

theorem key_pushed (x : Nat) :
    (h.pushed v).key x = if x = h.queue.size then h.rank v else h.key x := by
  have hrank : (h.pushed v).rank = h.rank := rank_congr rfl
  rw [key, hrank, pushed, Array.getElem?_push]
  split
  · rw [Option.elim_some]
  · rfl

theorem key_popped (htop : h.queue[0]? = some v) (x : Nat) : (h.popped v).key x =
    if x < h.queue.size - 1 then (if x = 0 then h.key (h.queue.size - 1) else h.key x) else ⊥ := by
  have hpos : 0 < h.queue.size := (Array.getElem?_eq_some_iff.1 htop).1
  split
  · next hx =>
    have hswap := key_swap (h := h) hpos (Nat.sub_lt hpos Nat.one_pos) x
    rw [if_neg (Nat.ne_of_lt hx)] at hswap
    rw [← hswap]
    have hget : (h.popped v).queue[x]? = (h.swap 0 (h.queue.size - 1)).queue[x]? := by
      rw [popped, Array.getElem?_pop, if_pos (by rwa [size_swap])]
    have hrank : (h.popped v).rank = (h.swap 0 (h.queue.size - 1)).rank := rank_congr rfl
    rw [key, key, hget, hrank]
  · next hx => exact key_of_size_le (by rw [size_popped]; omega)

theorem rank_rescored (hv : v.id < h.scores.cells.size) :
    (h.rescored v a).rank u = if u = v then ↑a else h.rank u := by
  split
  · next hu =>
    subst hu
    exact rank_of_get (by rw [rescored, VarMap.get_put hv, if_pos rfl])
  · next hu =>
    have hne : v.id ≠ u.id := fun he => hu (congrArg Var.mk he.symm)
    simp only [rank, rescored, VarMap.put, Array.getElem?_setIfInBounds, hne, if_false]

theorem key_rescored (hv : v.id < h.scores.cells.size) (x : Nat) :
    (h.rescored v a).key x = if h.queue[x]? = some v then ↑a else h.key x := by
  have hqueue : (h.rescored v a).queue = h.queue := rfl
  unfold key
  rw [hqueue]
  rcases h.queue[x]? with _ | u
  · rfl
  · simp only [Option.elim_some, rank_rescored hv, Option.some.injEq]

theorem rank_rescale (hv : h.Names v) : (h.rescale shrink).rank v = (h.rank v).map shrink := by
  obtain ⟨a, ha⟩ := VarMap.Room.get hv.2
  have hscaled : (h.rescale shrink).scores.get v = .ok (shrink a) := by
    rw [rescale, VarMap.get_map shrink (Nat.ne_of_gt hv.1), ha]
    rfl
  rw [rank_of_get hscaled, rank_of_get ha, WithBot.map_coe]

theorem rank_grow (hg : h.grow vars zero = .ok h') (hv : h.Names v) : h'.rank v = h.rank v := by
  obtain ⟨scores, places, hscores, -, rfl⟩ := grow_cases hg
  obtain ⟨a, ha⟩ := VarMap.Room.get hv.2
  rw [rank_of_get ha]
  exact rank_of_get (by rw [VarMap.get_grow hscores, if_pos hv.2, ha])

/-! ## The order is kept -/

variable [LinearOrder α]

/-- What is kept between two operations. -/
structure Sound (h : Heap α) : Prop where
  linked : h.Linked
  ordered : h.Ordered
  sizes : h.places.cells.size = h.scores.cells.size
  names : ∀ v, h.Queues v → h.Names v

theorem Sound.empty : Sound ({} : Heap α) where
  linked := .empty
  ordered := fun i => by rw [key_of_size_le (Nat.zero_le i)]; exact bot_le
  sizes := rfl
  names := by
    rintro v ⟨i, hi⟩
    simp at hi

theorem Sound.of_sameSize (hs : h.Sound) (hsame : h.SameSize h') (hlinked : h'.Linked)
    (hqueues : ∀ v, h'.Queues v → h.Names v) (ho : h'.Ordered) : h'.Sound := by
  refine ⟨hlinked, ho, by rw [hsame.places, hsame.scores, hs.sizes], fun v hv => ?_⟩
  unfold Names
  rw [hsame.scores]
  exact hqueues v hv

theorem Ordered.of_key {f : WithBot α → WithBot α} (ho : h.Ordered) (hf : Monotone f)
    (hk : ∀ i, h'.key i = f (h.key i)) : h'.Ordered := by
  intro i
  rw [hk, hk]
  exact hf (ho i)

theorem Ordered.pushed (ho : h.Ordered) (v : Var) : (h.pushed v).RisesFrom h.queue.size := by
  have hbeyond : ∀ j, h.queue.size < j → (h.pushed v).key j = ⊥ := by
    intro j hj
    rw [key_pushed, if_neg (Nat.ne_of_gt hj), key_of_size_le hj.le]
  constructor
  · intro j hj
    rcases Nat.lt_or_gt_of_ne hj with hlt | hgt
    · rw [key_pushed, key_pushed, if_neg hj, if_neg (by unfold parent; omega)]
      exact ho j
    · rw [hbeyond j hgt]
      exact bot_le
  · intro j hj
    by_cases hroot : j = h.queue.size
    · rw [hroot] at hj ⊢
      rw [hj]
    · rw [hbeyond j (by unfold parent at hj; omega)]
      exact bot_le

theorem Ordered.popped (ho : h.Ordered) (htop : h.queue[0]? = some v) :
    (h.popped v).SinksFrom 0 := by
  refine ⟨fun j hj => ?_, fun hpos => absurd hpos (Nat.lt_irrefl 0)⟩
  rw [key_popped htop j]
  split
  · next hlt =>
    have hne : j ≠ 0 := by
      rintro rfl
      exact hj rfl
    rw [key_popped htop, if_neg hne, if_pos (by unfold parent; omega), if_neg hj]
    exact ho j
  · exact bot_le

/-- A variable that gains may be too high for its parent; its children stay below both. -/
theorem Ordered.rescored (ho : h.Ordered) {i : Nat} (hrise : ∀ x, h.key x ≤ h'.key x)
    (hothers : ∀ x, x ≠ i → h'.key x = h.key x) : h'.RisesFrom i := by
  constructor
  · intro j hj
    rw [hothers j hj]
    exact (ho j).trans (hrise _)
  · intro j hj
    by_cases hji : j = i
    · rw [hji] at hj ⊢
      rw [hj]
    · rw [hothers j hji]
      calc h.key j ≤ h.key i := hj ▸ ho j
        _ ≤ h.key (parent i) := ho i
        _ ≤ h'.key (parent i) := hrise _

theorem Sound.grow (hs : h.Sound) (hg : h.grow vars zero = .ok h') : h'.Sound := by
  have hlinked := (grow_eq_ok hs.linked hg).linked
  have hrank : ∀ v, h.Queues v → h'.rank v = h.rank v := fun v hv => rank_grow hg (hs.names v hv)
  obtain ⟨scores, places, hscores, hplaces, rfl⟩ := grow_cases hg
  have hsize := (VarMap.grow_eq_ok hscores).2
  refine ⟨hlinked, hs.ordered.of_key monotone_id (key_of_rank rfl rfl hrank), ?_, fun v hv => ?_⟩
  · rw [hsize, (VarMap.grow_eq_ok hplaces).2, hs.sizes]
  · obtain ⟨hpos, hlt⟩ := hs.names v hv
    exact ⟨hpos, by simp only [hsize]; omega⟩

theorem Sound.insert (hs : h.Sound) (hv : h.Names v) (hi : h.insert v = .ok h') : h'.Sound := by
  obtain ⟨hlinked, hqueues⟩ := insert_eq_ok hs.linked hi
  have hnames : ∀ u, h.Queues u ∨ u = v → h.Names u := by
    rintro u (hu | rfl)
    · exact hs.names u hu
    · exact hv
  refine hs.of_sameSize (sameSize_insert hi) hlinked (fun u hu => hnames u ((hqueues u).1 hu))
    ?_
  obtain ⟨-, ⟨-, rfl⟩ | ⟨hout, rfl⟩⟩ := insert_cases hs.linked hi
  · exact hs.ordered
  · have hscored : (h.pushed v).Scored :=
      scored_of_queues fun u hu => (hnames u (queues_pushed.1 hu)).2
    exact (hs.ordered.pushed v).siftUp hscored (by simp [Heap.pushed])

theorem Sound.pop (hs : h.Sound) (hp : h.pop = some (v, h')) : h'.Sound := by
  obtain ⟨hlinked, -, -, hqueues⟩ := pop_eq_some hs.linked hp
  refine hs.of_sameSize (sameSize_pop hp) hlinked
    (fun u hu => hs.names u ((hqueues u).1 hu).1) ?_
  obtain ⟨htop, rfl⟩ := pop_cases hp
  have hscored : (h.popped v).Scored := by
    refine scored_of_queues fun u hu => ?_
    have hscores : (h.popped v).scores = h.scores := scores_swap
    rw [hscores]
    exact (hs.names u (((hs.linked.popped htop).2 u).1 hu).1).2
  exact (hs.ordered.popped htop).siftDownFrom hscored (Nat.le_refl _)

theorem Sound.increase (hs : h.Sound) (hv : h.Names v) (hraise : ∀ a, a ≤ raise a)
    (hi : h.increase v raise = .ok h') : h'.Sound := by
  obtain ⟨hlinked, hqueues, -⟩ := increase_eq_ok hs.linked hi
  refine hs.of_sameSize (sameSize_increase hi) hlinked
    (fun u hu => hs.names u ((hqueues u).1 hu)) ?_
  obtain ⟨old, place, hold, hplace, rfl⟩ := increase_cases hi
  have hrise : ∀ x, h.key x ≤ (h.rescored v (raise old)).key x := by
    intro x
    rw [key_rescored hv.2]
    split
    · next hx =>
      rw [key_of_queue hx, rank_of_get hold]
      exact WithBot.coe_le_coe.2 (hraise old)
    · exact le_rfl
  have hothers : ∀ x, h.queue[x]? ≠ some v → (h.rescored v (raise old)).key x = h.key x :=
    fun x hx => by rw [key_rescored hv.2, if_neg hx]
  have hplace := VarMap.getD_of_get (d := none) hplace
  cases place with
  | none =>
    have hout : ∀ x : Nat, h.queue[x]? ≠ some v := by
      intro x hx
      rw [(hs.linked v x).2 hx] at hplace
      exact absurd hplace (by simp)
    exact hs.ordered.of_key monotone_id fun x => hothers x (hout x)
  | some i =>
    have hqueue : h.queue[i]? = some v := (hs.linked v i).1 hplace
    have hscored : (h.rescored v (raise old)).Scored :=
      scored_of_queues fun u hu => (VarMap.size_put (m := h.scores)).symm ▸ (hs.names u hu).2
    have hrises := hs.ordered.rescored hrise (i := i) fun x hx =>
      hothers x fun hxv => hx (hs.linked.unique hxv hqueue)
    exact hrises.siftUp hscored (Array.getElem?_eq_some_iff.1 hqueue).1

theorem Sound.rescale (hs : h.Sound) (hshrink : Monotone shrink) : (h.rescale shrink).Sound :=
  hs.of_sameSize sameSize_rescale hs.linked hs.names
    (hs.ordered.of_key hshrink.withBot_map
      (key_of_rank rfl rfl fun v hv => rank_rescale (hs.names v hv)))

end Cdcl.Order.Heap
