import Cdcl.Proofs.Progress.Order

/-!
# What only new variables change

The `shape` of an order is the size of its tables, or its list of variables. Conflicts, decisions and
returns leave it as it is, and new variables extend it, so an order that was told of all variables
`Fits` them. Which variables it offers decides alone what it can pick: each order that it `Resembles`,
with whatever activities, signs and random numbers, picks an unassigned literal as long as the trail
is not full (`Resembles.select`).
-/

namespace Cdcl.Order
set_option autoImplicit false

/-! ## Heaps -/

namespace Heap

variable {α : Type} {h h' : Heap α} {v : Var}

theorem room_of_grow {zero : α} {vars : Nat} (hg : h.grow vars zero = .ok h') : h'.Room vars := by
  obtain ⟨scores, places, hscores, hplaces, rfl⟩ := grow_cases hg
  exact ⟨VarMap.room_of_grow hscores, VarMap.room_of_grow hplaces⟩

variable [LT α] [DecidableLT α]

theorem sameSize_insert (hi : h.insert v = .ok h') : h.SameSize h' := by
  obtain ⟨queued, hqueued, -⟩ := bind_eq_ok_iff.1 hi
  obtain ⟨place, hplace, -⟩ := bind_eq_ok_iff.1 hqueued
  obtain ⟨h'', hi', hsame⟩ := insert_succeeds (VarMap.lt_size_of_get hplace)
  obtain rfl := Except.ok.inj (hi.symm.trans hi')
  exact hsame

theorem sameSize_increase {raise : α → α} (hi : h.increase v raise = .ok h') : h.SameSize h' := by
  obtain ⟨old, place, -, -, rfl⟩ := increase_cases hi
  have hraised : h.SameSize (h.rescored v (raise old)) := ⟨VarMap.size_put, rfl⟩
  cases place with
  | none => exact hraised
  | some i => exact hraised.trans sameSize_siftUp

end Heap

/-! ## Shapes -/

/-- What only new variables change in an order. -/
inductive Shape where
  /-- The sizes of the tables. -/
  | activity (scores places positive : Nat)
  /-- The variables in the order in which they are taken. -/
  | uniform (vars : List Var)

def Activity.shape (a : Activity) : Shape :=
  .activity a.heap.scores.cells.size a.heap.places.cells.size a.positive.cells.size

def shape : Order → Shape
  | activity a => a.shape
  | uniform u => .uniform u.vars.toList

variable {o o' : Order} {a a' : Activity} {vars : Nat} {t : Trail} {l : Literal} {v : Var}

theorem Activity.shape_of_sameSize {heap : Heap Float} (hs : a.heap.SameSize heap)
    {positive : VarMap Bool} (hp : positive.cells.size = a.positive.cells.size) :
    { a with heap, positive }.shape = a.shape := by
  unfold shape
  rw [hs.scores, hs.places, hp]

theorem Activity.shape_bump (h : a.bump v = .ok a') : a'.shape = a.shape := by
  obtain ⟨old, -, h⟩ := bind_eq_ok_iff.1 h
  obtain ⟨heap, hheap, h⟩ := bind_eq_ok_iff.1 h
  obtain rfl := Except.ok.inj h
  split at hheap
  · next hlimit =>
    rw [if_pos hlimit]
    exact Activity.shape_of_sameSize (a := a)
      (Heap.sameSize_rescale.trans (Heap.sameSize_increase hheap)) rfl
  · next hlimit =>
    rw [if_neg hlimit]
    exact Activity.shape_of_sameSize (Heap.sameSize_increase hheap) rfl

theorem shape_bump (h : o.bump v = .ok o') : o'.shape = o.shape := by
  cases o with
  | activity a =>
    obtain ⟨a', ha', h⟩ := bind_eq_ok_iff.1 h
    obtain rfl := Except.ok.inj h
    exact Activity.shape_bump ha'
  | uniform u =>
    obtain rfl := Except.ok.inj h
    rfl

theorem shape_bumpAll {vs : List Var} (h : o.bumpAll vs = .ok o') : o'.shape = o.shape := by
  induction vs generalizing o with
  | nil =>
    obtain rfl := Except.ok.inj h
    rfl
  | cons v vs ih =>
    obtain ⟨o₁, ho₁, h⟩ := bind_eq_ok_iff.1 h
    exact (ih h).trans (shape_bump ho₁)

theorem shape_decayed (o : Order) : o.decayed.shape = o.shape := by
  cases o <;> rfl

theorem shape_undo (h : o.undo l = .ok o') : o'.shape = o.shape := by
  cases o with
  | activity a =>
    obtain ⟨a', ha', h⟩ := bind_eq_ok_iff.1 h
    obtain rfl := Except.ok.inj h
    obtain ⟨positive, hp, ha'⟩ := bind_eq_ok_iff.1 ha'
    obtain ⟨heap, hheap, ha'⟩ := bind_eq_ok_iff.1 ha'
    obtain rfl := Except.ok.inj ha'
    obtain ⟨-, rfl⟩ := VarMap.set_eq_ok hp
    exact Activity.shape_of_sameSize (Heap.sameSize_insert hheap) VarMap.size_put
  | uniform u =>
    obtain rfl := Except.ok.inj h
    rfl

theorem shape_undoAll {ls : List Literal} (h : o.undoAll ls = .ok o') : o'.shape = o.shape := by
  induction ls generalizing o with
  | nil =>
    obtain rfl := Except.ok.inj h
    rfl
  | cons l ls ih =>
    obtain ⟨o₁, ho₁, h⟩ := bind_eq_ok_iff.1 h
    exact (ih h).trans (shape_undo ho₁)

theorem sameSize_popUnassigned {fuel : Nat} {heap heap' : Heap Float} {picked : Option Var}
    (h : Activity.popUnassigned t fuel heap = .ok (picked, heap')) : heap.SameSize heap' := by
  induction fuel generalizing heap with
  | zero =>
    obtain ⟨-, rfl⟩ := Prod.mk.inj (Except.ok.inj h)
    exact .refl heap
  | succ fuel ih =>
    rw [Activity.popUnassigned] at h
    split at h
    · obtain ⟨-, rfl⟩ := Prod.mk.inj (Except.ok.inj h)
      exact .refl heap
    · next v heap₁ hpop =>
      have hsame := Heap.sameSize_pop hpop
      obtain ⟨assigned, -, h⟩ := bind_eq_ok_iff.1 h
      split at h
      · exact hsame.trans (ih h)
      · obtain ⟨-, rfl⟩ := Prod.mk.inj (Except.ok.inj h)
        exact hsame

theorem shape_select {picked : Option Literal} (h : o.select t = .ok (picked, o')) :
    o'.shape = o.shape := by
  cases o with
  | activity a =>
    obtain ⟨⟨l, a'⟩, ha', h⟩ := bind_eq_ok_iff.1 h
    obtain ⟨-, rfl⟩ := Prod.mk.inj (Except.ok.inj h)
    obtain ⟨⟨v, heap⟩, hpop, ha'⟩ := bind_eq_ok_iff.1 ha'
    have hshape : { a with heap }.shape = a.shape :=
      Activity.shape_of_sameSize (sameSize_popUnassigned hpop) rfl
    cases v with
    | none =>
      obtain ⟨-, rfl⟩ := Prod.mk.inj (Except.ok.inj ha')
      exact hshape
    | some v =>
      obtain ⟨positive, -, ha'⟩ := bind_eq_ok_iff.1 ha'
      obtain ⟨-, rfl⟩ := Prod.mk.inj (Except.ok.inj ha')
      exact hshape
  | uniform u =>
    obtain ⟨⟨l, u'⟩, hu', h⟩ := bind_eq_ok_iff.1 h
    obtain ⟨-, rfl⟩ := Prod.mk.inj (Except.ok.inj h)
    exact congrArg (fun vs : Array Var => Shape.uniform vs.toList) (Uniform.vars_select hu')

/-! ## Orders of all variables -/

/-- The order was told of the variables up to `vars`, one after the other. -/
def Fits (vars : Nat) : Order → Prop
  | activity a => a.heap.Room vars ∧ a.positive.Room vars
  | uniform u => u.vars.toList = (List.range' 1 vars).map Var.mk

theorem Fits.of_shape (h : o.Fits vars) (hs : o'.shape = o.shape) : o'.Fits vars := by
  cases o with
  | activity a =>
    cases o' with
    | activity a' =>
      obtain ⟨hscores, hplaces, hpositive⟩ := Shape.activity.inj hs
      exact ⟨h.1.of_sameSize ⟨hscores, hplaces⟩, h.2.of_size (Nat.le_of_eq hpositive.symm)⟩
    | uniform u' => exact absurd hs (by simp [shape, Activity.shape])
  | uniform u =>
    cases o' with
    | activity a' => exact absurd hs (by simp [shape, Activity.shape])
    | uniform u' => exact (Shape.uniform.inj hs).trans h

theorem Fits.room (h : o.Fits vars) : o.Room vars := by
  cases o with
  | activity a => exact h
  | uniform u => trivial

theorem fits_ofPolicy {p : Policy} {decay : Float} (h : ofPolicy p decay = .ok o) : o.Fits 0 := by
  have hroom := room_ofPolicy h
  cases p with
  | activity =>
    obtain ⟨a, -, h⟩ := bind_eq_ok_iff.1 h
    obtain rfl := Except.ok.inj h
    exact hroom
  | uniform seed =>
    obtain rfl := Except.ok.inj h
    rfl

theorem Fits.addVar (h : o.Fits vars) (hv : v.id = vars + 1) (ha : o.addVar v = .ok o') :
    o'.Fits (vars + 1) := by
  obtain ⟨i⟩ := v
  obtain rfl : i = vars + 1 := hv
  cases o with
  | activity a =>
    obtain ⟨a', ha', ha⟩ := bind_eq_ok_iff.1 ha
    obtain rfl := Except.ok.inj ha
    obtain ⟨heap₁, hheap₁, ha'⟩ := bind_eq_ok_iff.1 ha'
    obtain ⟨positive, hpositive, ha'⟩ := bind_eq_ok_iff.1 ha'
    obtain ⟨heap₂, hheap₂, ha'⟩ := bind_eq_ok_iff.1 ha'
    obtain rfl := Except.ok.inj ha'
    exact ⟨(Heap.room_of_grow hheap₁).of_sameSize (Heap.sameSize_insert hheap₂),
      VarMap.room_of_grow hpositive⟩
  | uniform u =>
    obtain rfl := Except.ok.inj ha
    change (u.vars.push _).toList = _
    rw [Array.toList_push, show u.vars.toList = _ from h, List.range'_concat, List.map_append,
      Nat.one_mul, Nat.add_comm 1 vars]
    rfl

theorem Fits.addVars {count : Nat} (h : o.Fits vars)
    (ha : o.addVars ((List.range' (vars + 1) count).map Var.mk) = .ok o') :
    o'.Fits (vars + count) := by
  induction count generalizing o vars with
  | zero =>
    obtain rfl := Except.ok.inj ha
    exact h
  | succ count ih =>
    obtain ⟨o₁, ho₁, ha⟩ := bind_eq_ok_iff.1 ha
    have hrest := ih (h.addVar rfl ho₁) ha
    rwa [Nat.add_right_comm] at hrest

/-! ## Picking -/

/-- By activity the unassigned variables are queued, and at random every variable of the trail is
listed once. -/
def Complete (t : Trail) : Order → Prop
  | activity a => ∀ v, InRange t.vars v → t.mark? v = none → a.heap.Queues v
  | uniform u => ∀ v, InRange t.vars v → u.vars.toList.count v = 1

theorem Fits.complete (h : o.Fits t.vars) (hc : o.Covers t) : o.Complete t := by
  cases o with
  | activity a => exact hc.2.2
  | uniform u =>
    intro v hv
    have hnodup : u.vars.toList.Nodup := by
      rw [show u.vars.toList = _ from h]
      exact List.Nodup.map (fun i j hij => congrArg Var.id hij) List.nodup_range'
    exact List.count_eq_one_of_mem hnodup (hc.2 v hv)

/-- Orders with tables of the same sizes that queue or list the same variables. Nothing is said of
activities, signs, increments and random numbers. -/
def Resembles : Order → Order → Prop
  | activity a, activity a' => a.heap.Like a'.heap ∧ a'.shape = a.shape
  | uniform u, uniform u' => u'.vars = u.vars
  | _, _ => False

theorem Resembles.shape (h : o.Resembles o') : o'.shape = o.shape := by
  cases o with
  | activity a =>
    cases o' with
    | activity a' => exact h.2
    | uniform u' => exact h.elim
  | uniform u =>
    cases o' with
    | activity a' => exact h.elim
    | uniform u' => exact congrArg (fun vs : Array Var => Shape.uniform vs.toList) h

theorem Resembles.covers (h : o.Resembles o') (hc : o.Covers t) : o'.Covers t := by
  cases o with
  | activity a =>
    cases o' with
    | activity a' =>
      obtain ⟨⟨hlinked, hqueues, -⟩, -⟩ := h
      exact ⟨hlinked, fun v hv => hc.2.1 v ((hqueues v).1 hv),
        fun v hv hfree => (hqueues v).2 (hc.2.2 v hv hfree)⟩
    | uniform u' => exact h.elim
  | uniform u =>
    cases o' with
    | activity a' => exact h.elim
    | uniform u' =>
      have hvars : u'.vars = u.vars := h
      obtain ⟨hin, hall⟩ := hc
      exact ⟨fun v hv => hin v (hvars ▸ hv), fun v hv => hvars.symm ▸ hall v hv⟩

theorem Covers.resembles (hc : o.Covers t) : o.Resembles o := by
  cases o with
  | activity a => exact ⟨hc.1.like, rfl⟩
  | uniform u => rfl

/-- No order of this kind loses a variable: it picks none exactly on a full trail, and otherwise an
unassigned literal of the trail. -/
theorem Resembles.select (h : o.Resembles o') (hc : o.Covers t) (hf : o.Fits t.vars)
    (ht : t.Valid) (hvars : t.vars < Var.signedLimit) :
    ∃ picked o'', o'.select t = .ok (picked, o'') ∧ (picked = none ↔ t.Full) ∧
      ∀ l, picked = some l → t.Names l ∧ t.mark? l.var = none := by
  obtain ⟨picked, o'', hselect, -⟩ := (hf.of_shape h.shape).room.select ht hvars (h.covers hc)
  have hpicks := select_eq_ok (h.covers hc) hvars hselect
  refine ⟨picked, o'', hselect, ?_⟩
  cases picked with
  | none => exact ⟨iff_of_true rfl hpicks.1, by simp⟩
  | some l =>
    obtain ⟨hnone, hname, -⟩ := hpicks
    refine ⟨iff_of_false (by simp) fun hfull => hfull l.var hname hnone, ?_⟩
    rintro _ ⟨⟩
    exact ⟨hname, hnone⟩

end Cdcl.Order
