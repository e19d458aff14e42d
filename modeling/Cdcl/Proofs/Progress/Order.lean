import Cdcl.Proofs.Order.Covering
import Cdcl.Proofs.Progress.Reading
import Cdcl.Proofs.Progress.Room

/-!
# Variable orders do not get stuck

An order has `Room` for its variables if its tables have a cell for each of them. Every operation has a
result then and keeps the room: the queue of a heap is only permuted, and no table shrinks.
-/

namespace Cdcl.Order
set_option autoImplicit false

variable {vars n : Nat}

/-! ## Heaps -/

namespace Heap

variable {α : Type} {h h' h'' : Heap α} {v : Var} {i j : Nat}

/-- The tables of both heaps have the same size. -/
structure SameSize (h h' : Heap α) : Prop where
  scores : h'.scores.cells.size = h.scores.cells.size
  places : h'.places.cells.size = h.places.cells.size

/-- Every variable has a score and a place. -/
structure Room (h : Heap α) (vars : Nat) : Prop where
  scores : h.scores.Room vars
  places : h.places.Room vars

theorem SameSize.refl (h : Heap α) : h.SameSize h := ⟨rfl, rfl⟩

theorem SameSize.trans (h₁ : h.SameSize h') (h₂ : h'.SameSize h'') : h.SameSize h'' :=
  ⟨h₂.scores.trans h₁.scores, h₂.places.trans h₁.places⟩

theorem Room.of_sameSize (h₁ : h.Room vars) (hs : h.SameSize h') : h'.Room vars :=
  ⟨h₁.scores.of_size (Nat.le_of_eq hs.scores.symm), h₁.places.of_size (Nat.le_of_eq hs.places.symm)⟩

theorem sameSize_swap : h.SameSize (h.swap i j) := by
  unfold swap
  split
  · exact ⟨rfl, VarMap.size_put.trans VarMap.size_put⟩
  · exact .refl h

section Sifting

variable [LT α] [DecidableLT α]

theorem sameSize_siftUp : h.SameSize (h.siftUp i) := by
  induction i using Nat.strongRecOn generalizing h with
  | ind i ih =>
    rw [siftUp]
    split
    · exact .refl h
    · dsimp only
      split
      · exact sameSize_swap.trans (ih _ (by omega))
      · exact .refl h

theorem sameSize_siftDownFrom : h.SameSize (siftDownFrom n h i) := by
  induction n generalizing h i with
  | zero => exact .refl h
  | succ n ih =>
    rw [siftDownFrom]
    split
    · exact .refl h
    · exact sameSize_swap.trans ih

theorem sameSize_pop (hp : h.pop = some (v, h')) : h.SameSize h' := by
  obtain ⟨-, rfl⟩ := pop_cases hp
  have hpopped : h.SameSize (h.popped v) :=
    ⟨sameSize_swap.scores, VarMap.size_put.trans sameSize_swap.places⟩
  exact hpopped.trans sameSize_siftDownFrom

theorem insert_succeeds (hv : v.id < h.places.cells.size) :
    ∃ h', h.insert v = .ok h' ∧ h.SameSize h' := by
  obtain ⟨place, hplace⟩ := VarMap.Room.get hv
  have hcontains : h.contains v = .ok place.isSome := bind_eq_ok_iff.2 ⟨place, hplace, rfl⟩
  cases hqueued : place.isSome with
  | true => exact ⟨h, bind_eq_ok_iff.2 ⟨true, hqueued ▸ hcontains, rfl⟩, .refl h⟩
  | false =>
    have hpushed : h.SameSize { h with
        queue := h.queue.push v, places := h.places.put v (some h.queue.size) } :=
      ⟨rfl, VarMap.size_put⟩
    exact ⟨_, bind_eq_ok_iff.2 ⟨false, hqueued ▸ hcontains, rfl⟩, hpushed.trans sameSize_siftUp⟩

theorem increase_succeeds (raise : α → α) (hr : h.Room vars) (hv : InRange vars v) :
    ∃ h', h.increase v raise = .ok h' ∧ h.SameSize h' := by
  obtain ⟨old, hold⟩ := VarMap.Room.get (hr.scores v hv)
  obtain ⟨place, hplace⟩ := VarMap.Room.get (hr.places v hv)
  have hraised : h.SameSize { h with scores := h.scores.put v (raise old) } :=
    ⟨VarMap.size_put, rfl⟩
  cases place with
  | none => exact ⟨_, bind_eq_ok_iff.2 ⟨old, hold, bind_eq_ok_iff.2 ⟨_, hplace, rfl⟩⟩, hraised⟩
  | some i =>
    exact ⟨_, bind_eq_ok_iff.2 ⟨old, hold, bind_eq_ok_iff.2 ⟨_, hplace, rfl⟩⟩,
      hraised.trans sameSize_siftUp⟩

end Sifting

theorem grow_succeeds (h : Heap α) (zero : α) (hvars : vars < Event.varLimit) :
    ∃ h', h.grow vars zero = .ok h' ∧ h'.Room vars := by
  have hwidth : cellWidth ≤ 24 := by decide
  obtain ⟨scores, hscores, hsroom⟩ := VarMap.grow_succeeds h.scores zero hvars hwidth
  obtain ⟨places, hplaces, hproom⟩ := VarMap.grow_succeeds h.places none hvars hwidth
  exact ⟨_, bind_eq_ok_iff.2 ⟨_, hscores, bind_eq_ok_iff.2 ⟨_, hplaces, rfl⟩⟩, hsroom, hproom⟩

theorem sameSize_rescale {shrink : α → α} : h.SameSize (h.rescale shrink) :=
  ⟨Array.size_mapIdx, rfl⟩

end Heap

/-! ## Orders -/

/-- The tables of an order have a cell for every variable. -/
def Room (vars : Nat) : Order → Prop
  | activity o => o.heap.Room vars ∧ o.positive.Room vars
  | uniform _ => True

variable {o o' : Order} {t : Trail} {l : Literal} {v : Var}

theorem room_ofPolicy {p : Policy} {decay : Float} (h : ofPolicy p decay = .ok o) :
    o.Room 0 := by
  have hnone : ∀ v, ¬ InRange 0 v := fun v hv => absurd hv.1 (by have := hv.2; omega)
  cases p with
  | activity =>
    obtain ⟨a, ha, h⟩ := bind_eq_ok_iff.1 h
    obtain ⟨_, -, ha⟩ := bind_eq_ok_iff.1 ha
    obtain rfl := Except.ok.inj h
    obtain rfl := Except.ok.inj ha
    exact ⟨⟨fun v hv => absurd hv (hnone v), fun v hv => absurd hv (hnone v)⟩,
      fun v hv => absurd hv (hnone v)⟩
  | uniform seed =>
    obtain rfl := Except.ok.inj h
    trivial

theorem addVar_succeeds (hv : 1 ≤ v.id) (hvars : v.id < Event.varLimit) :
    ∃ o', o.addVar v = .ok o' ∧ o'.Room v.id := by
  cases o with
  | activity a =>
    obtain ⟨heap, hheap, hroom⟩ := Heap.grow_succeeds a.heap 0.0 hvars
    obtain ⟨positive, hpositive, hproom⟩ :=
      VarMap.grow_succeeds a.positive false hvars (show 1 ≤ 24 by decide)
    obtain ⟨heap', hheap', hsame⟩ := Heap.insert_succeeds (hroom.places v ⟨hv, Nat.le_refl _⟩)
    have ha : a.addVar v = .ok { a with heap := heap', positive } :=
      bind_eq_ok_iff.2 ⟨_, hheap, bind_eq_ok_iff.2 ⟨_, hpositive, bind_eq_ok_iff.2 ⟨_, hheap', rfl⟩⟩⟩
    exact ⟨_, bind_eq_ok_iff.2 ⟨_, ha, rfl⟩, hroom.of_sameSize hsame, hproom⟩
  | uniform u => exact ⟨_, rfl, trivial⟩

theorem addVars_succeeds {first count : Nat} (hfirst : 1 ≤ first)
    (hvars : first + count ≤ Event.varLimit) (hroom : count = 0 → o.Room vars)
    (hlast : 0 < count → vars = first + count - 1) :
    ∃ o', o.addVars ((List.range' first count).map Var.mk) = .ok o' ∧ o'.Room vars := by
  induction count generalizing o first with
  | zero => exact ⟨o, rfl, hroom rfl⟩
  | succ count ih =>
    obtain ⟨o₁, ho₁, hroom₁⟩ := addVar_succeeds (o := o) (v := ⟨first⟩) hfirst
      (show first < Event.varLimit by omega)
    have hlast' := hlast (Nat.succ_pos count)
    obtain ⟨o', ho', hroom'⟩ := ih (o := o₁) (Nat.le_succ_of_le hfirst)
      (by omega) (fun hzero => (show vars = first by omega) ▸ hroom₁) (fun _ => by omega)
    exact ⟨o', bind_eq_ok_iff.2 ⟨_, ho₁, ho'⟩, hroom'⟩

/-! ## Conflicts -/

theorem Room.bump (h : o.Room vars) (hv : InRange vars v) :
    ∃ o', o.bump v = .ok o' ∧ o'.Room vars := by
  cases o with
  | activity a =>
    obtain ⟨hheap, hpositive⟩ := h
    obtain ⟨old, hold⟩ := VarMap.Room.get (hheap.scores v hv)
    have hrescaled : a.rescale.heap.Room vars := hheap.of_sameSize Heap.sameSize_rescale
    obtain ⟨a', ha', hroom⟩ : ∃ a', a.bump v = .ok a' ∧ (activity a').Room vars := by
      by_cases hlimit : Activity.rescaleLimit ≤ old + a.increment
      · obtain ⟨heap, hinc, hsame⟩ :=
          Heap.increase_succeeds (· + a.rescale.increment) hrescaled hv
        have ha : a.bump v = .ok { a.rescale with heap } := by
          refine bind_eq_ok_iff.2 ⟨old, hold, ?_⟩
          rw [if_pos hlimit]
          exact bind_eq_ok_iff.2 ⟨_, hinc, rfl⟩
        exact ⟨_, ha, hrescaled.of_sameSize hsame, hpositive⟩
      · obtain ⟨heap, hinc, hsame⟩ :=
          Heap.increase_succeeds (· + a.increment) hheap hv
        have ha : a.bump v = .ok { a with heap } := by
          refine bind_eq_ok_iff.2 ⟨old, hold, ?_⟩
          rw [if_neg hlimit]
          exact bind_eq_ok_iff.2 ⟨_, hinc, rfl⟩
        exact ⟨_, ha, hheap.of_sameSize hsame, hpositive⟩
    exact ⟨_, bind_eq_ok_iff.2 ⟨_, ha', rfl⟩, hroom⟩
  | uniform u => exact ⟨_, rfl, trivial⟩

theorem Room.bumpAll {vs : List Var} (h : o.Room vars) (hvs : ∀ v ∈ vs, InRange vars v) :
    ∃ o', o.bumpAll vs = .ok o' ∧ o'.Room vars := by
  induction vs generalizing o with
  | nil => exact ⟨o, rfl, h⟩
  | cons v vs ih =>
    obtain ⟨hv, hvs⟩ := List.forall_mem_cons.1 hvs
    obtain ⟨o₁, ho₁, hroom₁⟩ := h.bump hv
    obtain ⟨o', ho', hroom'⟩ := ih hroom₁ hvs
    exact ⟨o', bind_eq_ok_iff.2 ⟨_, ho₁, ho'⟩, hroom'⟩

theorem Room.decayed (h : o.Room vars) : o.decayed.Room vars := by
  cases o with
  | activity a => exact h
  | uniform u => exact h

/-! ## Returns -/

theorem Room.undo (h : o.Room vars) (hl : InRange vars l.var) :
    ∃ o', o.undo l = .ok o' ∧ o'.Room vars := by
  cases o with
  | activity a =>
    obtain ⟨hheap, hpositive⟩ := h
    obtain ⟨heap, hinsert, hsame⟩ := Heap.insert_succeeds (hheap.places l.var hl)
    have ha : a.undo l = .ok { a with heap, positive := a.positive.put l.var (!l.negative) } :=
      bind_eq_ok_iff.2 ⟨_, VarMap.Room.set (hpositive l.var hl), bind_eq_ok_iff.2 ⟨_, hinsert, rfl⟩⟩
    exact ⟨_, bind_eq_ok_iff.2 ⟨_, ha, rfl⟩, hheap.of_sameSize hsame,
      hpositive.of_size (Nat.le_of_eq VarMap.size_put.symm)⟩
  | uniform u => exact ⟨_, rfl, trivial⟩

theorem Room.undoAll {ls : List Literal} (h : o.Room vars) (hls : ∀ l ∈ ls, InRange vars l.var) :
    ∃ o', o.undoAll ls = .ok o' ∧ o'.Room vars := by
  induction ls generalizing o with
  | nil => exact ⟨o, rfl, h⟩
  | cons l ls ih =>
    obtain ⟨hl, hls⟩ := List.forall_mem_cons.1 hls
    obtain ⟨o₁, ho₁, hroom₁⟩ := h.undo hl
    obtain ⟨o', ho', hroom'⟩ := ih hroom₁ hls
    exact ⟨o', bind_eq_ok_iff.2 ⟨_, ho₁, ho'⟩, hroom'⟩

/-! ## Picking -/

section
variable (ht : t.Valid) (hvars : t.vars < Var.signedLimit)
include ht hvars

theorem isAssigned_positive (hv : InRange t.vars v) :
    t.isAssigned v.positive = .ok (t.mark? v).isSome := by
  have hvar : v.positive.var = v := literal_var (Nat.lt_of_le_of_lt hv.2 hvars)
  have hname : t.Names v.positive := by
    unfold Trail.Names
    rwa [hvar]
  rw [ht.isAssigned hname, hvar]

theorem popUnassigned_succeeds (fuel : Nat) {heap : Heap Float} (hl : heap.Linked)
    (hin : ∀ v, heap.Queues v → InRange t.vars v) :
    ∃ picked heap', Activity.popUnassigned t fuel heap = .ok (picked, heap') ∧
      heap.SameSize heap' := by
  induction fuel generalizing heap with
  | zero => exact ⟨none, heap, rfl, .refl heap⟩
  | succ fuel ih =>
    rw [Activity.popUnassigned]
    split
    · exact ⟨none, heap, rfl, .refl heap⟩
    · next v heap₁ hpop =>
      obtain ⟨hl₁, hv, -, hqueues⟩ := Heap.pop_eq_some hl hpop
      have hsame := Heap.sameSize_pop hpop
      rw [isAssigned_positive ht hvars (hin v hv)]
      cases (t.mark? v).isSome with
      | true =>
        obtain ⟨picked, heap', hrest, hsame'⟩ := ih hl₁ fun u hu => hin u ((hqueues u).1 hu).1
        exact ⟨picked, heap', bind_eq_ok_iff.2 ⟨true, rfl, hrest⟩, hsame.trans hsame'⟩
      | false => exact ⟨some v, heap₁, bind_eq_ok_iff.2 ⟨false, rfl, rfl⟩, hsame⟩

namespace Uniform

theorem firstUnassigned_succeeds {vs : List Var} (hvs : ∀ v ∈ vs, InRange t.vars v) :
    ∃ found, firstUnassigned t vs = .ok found := by
  induction vs with
  | nil => exact ⟨none, rfl⟩
  | cons v vs ih =>
    obtain ⟨hv, hvs⟩ := List.forall_mem_cons.1 hvs
    rw [firstUnassigned, isAssigned_positive ht hvars hv]
    cases (t.mark? v).isSome with
    | true =>
      obtain ⟨found, hrest⟩ := ih hvs
      exact ⟨found, bind_eq_ok_iff.2 ⟨true, rfl, hrest⟩⟩
    | false => exact ⟨some v, bind_eq_ok_iff.2 ⟨false, rfl, rfl⟩⟩

theorem select_succeeds {σ : Type} [RandomSource σ] {u : Uniform σ}
    (hin : ∀ v ∈ u.vars.toList, InRange t.vars v) : ∃ r, u.select t = .ok r := by
  unfold select
  split
  · exact ⟨_, rfl⟩
  · obtain ⟨found, hfound⟩ := firstUnassigned_succeeds ht hvars fun v hv =>
      hin v ((u.mem_ringFrom _ v).1 hv)
    cases found with
    | none => exact ⟨_, bind_eq_ok_iff.2 ⟨_, hfound, rfl⟩⟩
    | some v => exact ⟨_, bind_eq_ok_iff.2 ⟨_, hfound, rfl⟩⟩

end Uniform

/-- An order that covers a trail picks, or finds that there is nothing to pick. -/
theorem Room.select (h : o.Room t.vars) (hc : o.Covers t) :
    ∃ picked o', o.select t = .ok (picked, o') ∧ o'.Room t.vars := by
  cases o with
  | activity a =>
    obtain ⟨hheap, hpositive⟩ := h
    obtain ⟨hlinked, hin, -⟩ := hc
    obtain ⟨v, heap, hpop, hsame⟩ :=
      popUnassigned_succeeds ht hvars a.heap.queue.size hlinked hin
    have hroom : heap.Room t.vars := hheap.of_sameSize hsame
    cases v with
    | none =>
      have ha : a.select t = .ok (none, { a with heap }) := bind_eq_ok_iff.2 ⟨_, hpop, rfl⟩
      exact ⟨_, _, bind_eq_ok_iff.2 ⟨_, ha, rfl⟩, hroom, hpositive⟩
    | some v =>
      obtain ⟨-, -, hv, -⟩ := popUnassigned_eq_ok hlinked
        (fun v hv => Nat.lt_of_le_of_lt (hin v hv).2 hvars) (Nat.le_refl _) hpop
      obtain ⟨positive, hp⟩ := VarMap.Room.get (hpositive v (hin v hv))
      have ha : a.select t = .ok (some (v.literal (!positive)), { a with heap }) :=
        bind_eq_ok_iff.2 ⟨_, hpop, bind_eq_ok_iff.2 ⟨_, hp, rfl⟩⟩
      exact ⟨_, _, bind_eq_ok_iff.2 ⟨_, ha, rfl⟩, hroom, hpositive⟩
  | uniform u =>
    obtain ⟨⟨picked, u'⟩, hu⟩ := Uniform.select_succeeds ht hvars hc.1
    exact ⟨_, _, bind_eq_ok_iff.2 ⟨_, hu, rfl⟩, trivial⟩

end

end Cdcl.Order
