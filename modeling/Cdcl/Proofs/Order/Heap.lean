import Mathlib.Tactic.ByContra
import Cdcl.Order.Heap
import Cdcl.Proofs.Table

/-!
# Which variables a heap queues

`Heap.Linked` says that the places are the inverse of the queue. Every operation keeps this, and
sifting permutes the queue, so an operation changes the queued variables in the obvious way, whatever
the scores are. `pushed`, `popped` and `rescored` are what the operations make of a heap before they
sift.
-/

namespace Cdcl.Order.Heap
set_option autoImplicit false

variable {α : Type} {h h' : Heap α} {u v w : Var} {i j : Nat}

/-- The places are the inverse of the queue. -/
def Linked (h : Heap α) : Prop := ∀ v i, h.places.getD v none = some i ↔ h.queue[i]? = some v

/-- The variable lies in the queue. -/
def Queues (h : Heap α) (v : Var) : Prop := ∃ i : Nat, h.queue[i]? = some v

/-- A variable at the end of the queue, before it is sifted. -/
def pushed (h : Heap α) (v : Var) : Heap α :=
  { h with queue := h.queue.push v, places := h.places.put v (some h.queue.size) }

/-- The first variable is taken off and the last one stands in its place, before it is sifted. -/
def popped (h : Heap α) (top : Var) : Heap α :=
  { h.swap 0 (h.queue.size - 1) with
    queue := (h.swap 0 (h.queue.size - 1)).queue.pop
    places := (h.swap 0 (h.queue.size - 1)).places.put top none }

/-- A variable with another score, before it is sifted. -/
def rescored (h : Heap α) (v : Var) (a : α) : Heap α := { h with scores := h.scores.put v a }

/-- The heap queues the same variables, and its places are right. -/
structure Like (h h' : Heap α) : Prop where
  linked : h'.Linked
  queues : ∀ v, h'.Queues v ↔ h.Queues v
  size : h'.queue.size = h.queue.size

theorem Linked.like (hl : h.Linked) : h.Like h := ⟨hl, fun _ => Iff.rfl, rfl⟩

theorem Like.trans {h'' : Heap α} (h₁ : h.Like h') (h₂ : h'.Like h'') : h.Like h'' :=
  ⟨h₂.linked, fun v => (h₂.queues v).trans (h₁.queues v), h₂.size.trans h₁.size⟩

theorem Linked.lt_size (hl : h.Linked) (hi : h.queue[i]? = some v) :
    v.id < h.places.cells.size := by
  have hv := (hl v i).2 hi
  by_contra hge
  simp [VarMap.getD, Array.getD_eq_getD_getElem?, Array.getElem?_eq_none (Nat.le_of_not_lt hge)] at hv

theorem Linked.unique (hl : h.Linked) (hi : h.queue[i]? = some v) (hj : h.queue[j]? = some v) :
    i = j := Option.some.inj (((hl v i).2 hi).symm.trans ((hl v j).2 hj))

/-- Two tables that are inverse to each other stay so when two entries change places. -/
theorem inverse_swap {p : Var → Option Nat} {q : Nat → Option Var} {v w : Var}
    (hl : ∀ u x, p u = some x ↔ q x = some u) (hv : q i = some v) (hw : q j = some w) (u : Var)
    (x : Nat) :
    (if u = v then some j else if u = w then some i else p u) = some x ↔
      (if x = j then some v else if x = i then some w else q x) = some u := by
  have hu := hl u x
  have hvu := hl v x
  have hwu := hl w x
  have hvi := (hl v i).2 hv
  have hwj := (hl w j).2 hw
  grind

theorem size_swap : (h.swap i j).queue.size = h.queue.size := by
  unfold Heap.swap
  split
  · simp [Heap.place]
  · rfl

theorem scores_swap : (h.swap i j).scores = h.scores := by
  unfold Heap.swap
  split <;> rfl

theorem queue_swap (hv : h.queue[i]? = some v) (hw : h.queue[j]? = some w) (x : Nat) :
    (h.swap i j).queue[x]? = if x = j then some v else if x = i then some w else h.queue[x]? := by
  obtain ⟨hi, -⟩ := Array.getElem?_eq_some_iff.1 hv
  obtain ⟨hj, -⟩ := Array.getElem?_eq_some_iff.1 hw
  simp only [Heap.swap, hv, hw, Heap.place, Array.getElem?_setIfInBounds,
    Array.size_setIfInBounds, hi, hj, if_true, eq_comm (b := x)]

theorem Linked.places_swap (hl : h.Linked) (hv : h.queue[i]? = some v) (hw : h.queue[j]? = some w)
    (u : Var) : (h.swap i j).places.getD u none =
      if u = v then some j else if u = w then some i else h.places.getD u none := by
  simp only [Heap.swap, hv, hw, Heap.place, VarMap.getD_put, VarMap.size_put, hl.lt_size hv,
    hl.lt_size hw, and_true]

theorem Linked.swap (hl : h.Linked) : h.Like (h.swap i j) := by
  rcases hv : h.queue[i]? with _ | v
  · have hsame : h.swap i j = h := by simp only [Heap.swap, hv]
    exact hsame.symm ▸ hl.like
  rcases hw : h.queue[j]? with _ | w
  · have hsame : h.swap i j = h := by simp only [Heap.swap, hv, hw]
    exact hsame.symm ▸ hl.like
  refine ⟨fun u x => ?_, fun u => ?_, size_swap⟩
  · rw [hl.places_swap hv hw, queue_swap hv hw]
    exact inverse_swap (p := fun u => h.places.getD u none) (q := fun x => h.queue[x]?) hl hv hw u x
  · unfold Queues
    constructor
    · rintro ⟨x, hx⟩
      rw [queue_swap hv hw] at hx
      grind
    · rintro ⟨x, hx⟩
      by_cases hxi : x = i
      · exact ⟨j, by rw [queue_swap hv hw]; grind⟩
      · by_cases hxj : x = j
        · exact ⟨i, by rw [queue_swap hv hw]; grind⟩
        · exact ⟨x, by rw [queue_swap hv hw]; grind⟩

theorem contains_eq_ok {b : Bool} (hl : h.Linked) (hc : h.contains v = .ok b) :
    v.id < h.places.cells.size ∧ (b = true ↔ h.Queues v) := by
  obtain ⟨place, hplace, hc⟩ := bind_eq_ok_iff.1 hc
  obtain rfl := Except.ok.inj hc
  refine ⟨VarMap.lt_size_of_get hplace, ?_⟩
  unfold Queues
  rw [← VarMap.getD_of_get (d := none) hplace, Option.isSome_iff_exists]
  exact exists_congr fun i => hl v i

/-! ## Before sifting -/

theorem Linked.pushed (hl : h.Linked) (hcell : v.id < h.places.cells.size) (hout : ¬ h.Queues v) :
    (h.pushed v).Linked := by
  have hnot : ∀ x : Nat, h.queue[x]? ≠ some v := fun x hx => hout ⟨x, hx⟩
  intro u x
  have hu := hl u x
  simp only [Heap.pushed, VarMap.getD_put, hcell, and_true, Array.getElem?_push]
  have hlt : h.queue[x]? = some u → x < h.queue.size := fun hx =>
    (Array.getElem?_eq_some_iff.1 hx).1
  have := hnot x
  grind

theorem queues_pushed : (h.pushed v).Queues u ↔ h.Queues u ∨ u = v := by
  unfold Queues Heap.pushed
  simp only [Array.getElem?_push]
  constructor
  · rintro ⟨x, hx⟩
    split at hx
    · exact Or.inr (Option.some.inj hx).symm
    · exact Or.inl ⟨x, hx⟩
  · rintro (⟨x, hx⟩ | rfl)
    · have := (Array.getElem?_eq_some_iff.1 hx).1
      exact ⟨x, by rw [if_neg (by omega), hx]⟩
    · exact ⟨h.queue.size, by rw [if_pos rfl]⟩

theorem size_popped : (h.popped v).queue.size = h.queue.size - 1 := by
  simp only [Heap.popped, Array.size_pop, size_swap]

/-- The top was brought to the end of the queue. -/
theorem queue_swap_last (htop : h.queue[0]? = some v) :
    (h.swap 0 (h.queue.size - 1)).queue[h.queue.size - 1]? = some v := by
  have hpos : 0 < h.queue.size := (Array.getElem?_eq_some_iff.1 htop).1
  have hend : h.queue[h.queue.size - 1]? = some h.queue[h.queue.size - 1] :=
    Array.getElem?_eq_getElem (by omega)
  rw [queue_swap htop hend, if_pos rfl]

theorem Linked.popped (hl : h.Linked) (htop : h.queue[0]? = some v) :
    (h.popped v).Linked ∧ ∀ u, (h.popped v).Queues u ↔ h.Queues u ∧ u ≠ v := by
  obtain ⟨hlinked, hqueues, hsize⟩ := hl.swap (i := 0) (j := h.queue.size - 1)
  have hlast := queue_swap_last htop
  have hcell := hlinked.lt_size hlast
  have hunique : ∀ x, (h.swap 0 (h.queue.size - 1)).queue[x]? = some v → x = h.queue.size - 1 :=
    fun x hx => hlinked.unique hx hlast
  have hlt : ∀ u x, (h.swap 0 (h.queue.size - 1)).queue[x]? = some u → x < h.queue.size :=
    fun u x hx => hsize ▸ (Array.getElem?_eq_some_iff.1 hx).1
  refine ⟨fun u x => ?_, fun u => ?_⟩
  · have hu := hlinked u x
    have := hunique x
    have := hlt u x
    simp only [Heap.popped, VarMap.getD_put, hcell, and_true, Array.getElem?_pop, hsize]
    grind
  · rw [← hqueues u]
    unfold Queues Heap.popped
    simp only [Array.getElem?_pop, hsize]
    constructor
    · rintro ⟨x, hx⟩
      split at hx
      · next hbefore =>
        refine ⟨⟨x, hx⟩, ?_⟩
        rintro rfl
        have := hunique x hx
        omega
      · exact absurd hx (by simp)
    · rintro ⟨⟨x, hx⟩, hne⟩
      have := hlt u x hx
      refine ⟨x, ?_⟩
      rw [if_pos, hx]
      refine Nat.lt_of_le_of_ne (by omega) fun he => hne ?_
      rw [he, hlast] at hx
      exact (Option.some.inj hx).symm

theorem Linked.rescored (hl : h.Linked) (a : α) : h.Like (h.rescored v a) :=
  ⟨hl, fun _ => Iff.rfl, rfl⟩

/-! ## Sifting -/

section Sifting
variable [LT α] [DecidableLT α]

theorem Linked.siftUp (hl : h.Linked) : h.Like (h.siftUp i) := by
  induction i using Nat.strongRecOn generalizing h with
  | ind i ih =>
    rw [Heap.siftUp]
    split
    · exact hl.like
    · next hi =>
      dsimp only
      split
      · exact hl.swap.trans (ih _ (by omega) hl.swap.linked)
      · exact hl.like

theorem Linked.siftDownFrom {n : Nat} (hl : h.Linked) : h.Like (siftDownFrom n h i) := by
  induction n generalizing h i with
  | zero => exact hl.like
  | succ n ih =>
    rw [Heap.siftDownFrom]
    split
    · exact hl.like
    · exact hl.swap.trans (ih hl.swap.linked)

theorem scores_siftUp : (h.siftUp i).scores = h.scores := by
  induction i using Nat.strongRecOn generalizing h with
  | ind i ih =>
    rw [Heap.siftUp]
    split
    · rfl
    · dsimp only
      split
      · exact (ih _ (by omega)).trans scores_swap
      · rfl

theorem scores_siftDownFrom {n : Nat} : (siftDownFrom n h i).scores = h.scores := by
  induction n generalizing h i with
  | zero => rfl
  | succ n ih =>
    rw [Heap.siftDownFrom]
    split
    · rfl
    · exact ih.trans scores_swap

/-! ## Operations -/

theorem insert_cases (hl : h.Linked) (hi : h.insert v = .ok h') : v.id < h.places.cells.size ∧
    (h.Queues v ∧ h' = h ∨ ¬ h.Queues v ∧ h' = (h.pushed v).siftUp h.queue.size) := by
  obtain ⟨b, hb, hi⟩ := bind_eq_ok_iff.1 hi
  obtain ⟨hcell, hqueued⟩ := contains_eq_ok hl hb
  refine ⟨hcell, ?_⟩
  split at hi
  · next hin => exact Or.inl ⟨hqueued.1 hin, (Except.ok.inj hi).symm⟩
  · next hout => exact Or.inr ⟨fun hq => hout (hqueued.2 hq), (Except.ok.inj hi).symm⟩

theorem insert_eq_ok (hl : h.Linked) (hi : h.insert v = .ok h') :
    h'.Linked ∧ ∀ u, h'.Queues u ↔ h.Queues u ∨ u = v := by
  obtain ⟨hcell, ⟨hin, rfl⟩ | ⟨hout, rfl⟩⟩ := insert_cases hl hi
  · refine ⟨hl, fun u => ⟨Or.inl, ?_⟩⟩
    rintro (hu | rfl)
    · exact hu
    · exact hin
  · obtain ⟨hlinked, hqueues, -⟩ := (hl.pushed hcell hout).siftUp (i := h.queue.size)
    exact ⟨hlinked, fun u => (hqueues u).trans queues_pushed⟩

theorem pop_eq_none (hp : h.pop = none) : ∀ v, ¬ h.Queues v := by
  unfold pop at hp
  split at hp
  · next hnone =>
    rintro v ⟨i, hi⟩
    have hlt := (Array.getElem?_eq_some_iff.1 hi).1
    have : h.queue.size ≤ 0 := by simpa using hnone
    omega
  · exact absurd hp (by simp)

theorem pop_cases (hp : h.pop = some (v, h')) :
    h.queue[0]? = some v ∧ h' = (h.popped v).siftDown 0 := by
  unfold pop at hp
  split at hp
  · exact absurd hp (by simp)
  · next top htop =>
    obtain ⟨rfl, rfl⟩ := Prod.mk.inj (Option.some.inj hp)
    exact ⟨htop, rfl⟩

theorem scores_pop (hp : h.pop = some (v, h')) : h'.scores = h.scores := by
  obtain ⟨-, rfl⟩ := pop_cases hp
  exact scores_siftDownFrom.trans scores_swap

theorem pop_eq_some (hl : h.Linked) (hp : h.pop = some (v, h')) :
    h'.Linked ∧ h.Queues v ∧ h'.queue.size + 1 = h.queue.size ∧
      ∀ u, h'.Queues u ↔ h.Queues u ∧ u ≠ v := by
  obtain ⟨htop, rfl⟩ := pop_cases hp
  have hpos : 0 < h.queue.size := (Array.getElem?_eq_some_iff.1 htop).1
  obtain ⟨hpopped, hqueues⟩ := hl.popped htop
  obtain ⟨hdone, hsame, hsize⟩ := hpopped.siftDownFrom (n := (h.popped v).queue.size) (i := 0)
  refine ⟨hdone, ⟨0, htop⟩, ?_, fun u => (hsame u).trans (hqueues u)⟩
  change (Heap.siftDownFrom _ _ _).queue.size + 1 = _
  rw [hsize, size_popped]
  omega

theorem increase_cases {raise : α → α} (hi : h.increase v raise = .ok h') :
    ∃ old place, h.scores.get v = .ok old ∧ h.places.get v = .ok place ∧
      h' = match place with
        | some i => (h.rescored v (raise old)).siftUp i
        | none => h.rescored v (raise old) := by
  obtain ⟨old, hold, hi⟩ := bind_eq_ok_iff.1 hi
  obtain ⟨place, hplace, hi⟩ := bind_eq_ok_iff.1 hi
  refine ⟨old, place, hold, hplace, ?_⟩
  cases place with
  | none => exact (Except.ok.inj hi).symm
  | some i => exact (Except.ok.inj hi).symm

theorem increase_eq_ok {raise : α → α} (hl : h.Linked) (hi : h.increase v raise = .ok h') :
    h.Like h' := by
  obtain ⟨old, place, -, -, rfl⟩ := increase_cases hi
  cases place with
  | none => exact hl.rescored _
  | some i => exact (hl.rescored _).trans (hl.rescored _).linked.siftUp

end Sifting

theorem grow_cases {vars : Nat} {zero : α} (hg : h.grow vars zero = .ok h') :
    ∃ scores places, h.scores.grow vars cellWidth zero = .ok scores ∧
      h.places.grow vars cellWidth none = .ok places ∧ h' = { h with scores, places } := by
  obtain ⟨scores, hscores, hg⟩ := bind_eq_ok_iff.1 hg
  obtain ⟨places, hplaces, hg⟩ := bind_eq_ok_iff.1 hg
  exact ⟨scores, places, hscores, hplaces, (Except.ok.inj hg).symm⟩

theorem grow_eq_ok {vars : Nat} {zero : α} (hl : h.Linked) (hg : h.grow vars zero = .ok h') :
    h.Like h' := by
  obtain ⟨scores, places, -, hplaces, rfl⟩ := grow_cases hg
  exact ⟨fun v i => by rw [(VarMap.grow_eq_ok hplaces).1 v]; exact hl v i, fun _ => Iff.rfl, rfl⟩

theorem Linked.rescale {shrink : α → α} (hl : h.Linked) : h.Like (h.rescale shrink) :=
  ⟨hl, fun _ => Iff.rfl, rfl⟩

theorem Linked.empty : Linked ({} : Heap α) := by
  intro v i
  simp [VarMap.getD, VarMap.empty]

end Cdcl.Order.Heap
