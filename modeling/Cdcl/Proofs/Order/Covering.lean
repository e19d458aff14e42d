import Cdcl.Order
import Cdcl.Proofs.Order.Heap
import Cdcl.Proofs.Trail.Changes

/-!
# No order loses a variable

`Order.Covers` says that an order offers every unassigned variable of a trail and only variables of
the trail. Every operation on the order keeps this along with the change of the trail that it is told
of, so a variable is picked as long as one is unassigned (`select_eq_ok`).
-/

namespace Cdcl.Order
set_option autoImplicit false

/-- The variable is one of the variables of a trail. -/
def InRange (vars : Nat) (v : Var) : Prop := 1 ≤ v.id ∧ v.id ≤ vars

/-- The order offers every variable for which `free` holds, and only variables in range. At random,
variables are offered whether they are assigned or not. -/
def Offers (vars : Nat) (free : Var → Prop) : Order → Prop
  | activity o => o.heap.Linked ∧ (∀ v, o.heap.Queues v → InRange vars v) ∧
      ∀ v, InRange vars v → free v → o.heap.Queues v
  | uniform o => (∀ v ∈ o.vars.toList, InRange vars v) ∧ ∀ v, InRange vars v → v ∈ o.vars.toList

/-- The order offers every unassigned variable, and only variables of the trail. -/
def Covers (o : Order) (t : Trail) : Prop := o.Offers t.vars fun v => t.mark? v = none

variable {o o' : Order} {vars : Nat} {free free' : Var → Prop} {t : Trail} {l : Literal} {v : Var}

theorem Offers.mono (h : o.Offers vars free) (hfree : ∀ v, free' v → free v) :
    o.Offers vars free' := by
  cases o with
  | activity o => exact ⟨h.1, h.2.1, fun v hv hf => h.2.2 v hv (hfree v hf)⟩
  | uniform o => exact h

theorem Covers.mono {t' : Trail} (h : o.Covers t) (hvars : t'.vars = t.vars)
    (hmarks : ∀ v, t'.mark? v = none → t.mark? v = none) : o.Covers t' := by
  unfold Covers
  rw [hvars]
  exact Offers.mono h hmarks

/-! ## Changes that keep the variables -/

theorem Activity.bump_eq_ok {a a' : Activity} (hl : a.heap.Linked) (h : a.bump v = .ok a') :
    a.heap.Like a'.heap := by
  obtain ⟨old, -, h⟩ := bind_eq_ok_iff.1 h
  obtain ⟨heap, hheap, h⟩ := bind_eq_ok_iff.1 h
  obtain rfl := Except.ok.inj h
  split at hheap
  · exact hl.rescale.trans (Heap.increase_eq_ok hl.rescale.linked hheap)
  · exact Heap.increase_eq_ok hl hheap

theorem Offers.bump (h : o.Offers vars free) (hb : o.bump v = .ok o') : o'.Offers vars free := by
  cases o with
  | activity a =>
    obtain ⟨a', ha', hb⟩ := bind_eq_ok_iff.1 hb
    obtain rfl := Except.ok.inj hb
    obtain ⟨hlinked, hqueues, -⟩ := Activity.bump_eq_ok h.1 ha'
    exact ⟨hlinked, fun v hv => h.2.1 v ((hqueues v).1 hv),
      fun v hv hf => (hqueues v).2 (h.2.2 v hv hf)⟩
  | uniform u =>
    obtain rfl := Except.ok.inj hb
    exact h

theorem Offers.bumpAll {vs : List Var} (h : o.Offers vars free) (hb : o.bumpAll vs = .ok o') :
    o'.Offers vars free := by
  induction vs generalizing o with
  | nil =>
    obtain rfl := Except.ok.inj hb
    exact h
  | cons v vs ih =>
    obtain ⟨o₁, ho₁, hb⟩ := bind_eq_ok_iff.1 hb
    exact ih (h.bump ho₁) hb

theorem Offers.decayed (h : o.Offers vars free) : o.decayed.Offers vars free := by
  cases o with
  | activity o => exact h
  | uniform o => exact h

/-! ## Changes of the variables -/

theorem offers_ofPolicy {p : Policy} {decay : Float} (h : ofPolicy p decay = .ok o) :
    o.Offers 0 free := by
  have hnone : ∀ v, ¬ InRange 0 v := by
    rintro v ⟨h1, h2⟩
    omega
  cases p with
  | activity =>
    obtain ⟨a, ha, h⟩ := bind_eq_ok_iff.1 h
    obtain ⟨_, -, ha⟩ := bind_eq_ok_iff.1 ha
    obtain rfl := Except.ok.inj h
    obtain rfl := Except.ok.inj ha
    refine ⟨Heap.Linked.empty, ?_, fun v hv => absurd hv (hnone v)⟩
    rintro v ⟨i, hi⟩
    simp at hi
  | uniform seed =>
    obtain rfl := Except.ok.inj h
    exact ⟨by simp [Uniform.create], fun v hv => absurd hv (hnone v)⟩

theorem Offers.addVar (h : o.Offers vars free) (hv : v.id = vars + 1) (ha : o.addVar v = .ok o') :
    o'.Offers (vars + 1) free := by
  have hrange : ∀ u, InRange (vars + 1) u ↔ InRange vars u ∨ u = v := by
    rintro ⟨i⟩
    obtain ⟨j⟩ := v
    simp only [InRange, Var.mk.injEq] at hv ⊢
    omega
  cases o with
  | activity a =>
    obtain ⟨a', ha', ha⟩ := bind_eq_ok_iff.1 ha
    obtain rfl := Except.ok.inj ha
    obtain ⟨heap₁, hheap₁, ha'⟩ := bind_eq_ok_iff.1 ha'
    obtain ⟨positive, -, ha'⟩ := bind_eq_ok_iff.1 ha'
    obtain ⟨heap₂, hheap₂, ha'⟩ := bind_eq_ok_iff.1 ha'
    obtain rfl := Except.ok.inj ha'
    obtain ⟨hlinked₁, hqueues₁, -⟩ := Heap.grow_eq_ok h.1 hheap₁
    obtain ⟨hlinked₂, hqueues₂⟩ := Heap.insert_eq_ok hlinked₁ hheap₂
    have hq : ∀ u, heap₂.Queues u ↔ a.heap.Queues u ∨ u = v := by
      intro u
      rw [hqueues₂, hqueues₁]
    refine ⟨hlinked₂, fun u hu => (hrange u).2 ?_, fun u hu hf => (hq u).2 ?_⟩
    · exact ((hq u).1 hu).imp_left (h.2.1 u)
    · exact ((hrange u).1 hu).imp_left fun hu => h.2.2 u hu hf
  | uniform u =>
    obtain rfl := Except.ok.inj ha
    refine ⟨fun w hw => (hrange w).2 ?_, fun w hw => ?_⟩
    · simp only [Uniform.addVar, Array.toList_push, List.mem_append, List.mem_singleton] at hw
      exact hw.imp_left (h.1 w)
    · simp only [Uniform.addVar, Array.toList_push, List.mem_append, List.mem_singleton]
      exact ((hrange w).1 hw).imp_left (h.2 w)

theorem Offers.addVars {count : Nat} (h : o.Offers vars free)
    (ha : o.addVars ((List.range' (vars + 1) count).map Var.mk) = .ok o') :
    o'.Offers (vars + count) free := by
  induction count generalizing o vars with
  | zero =>
    obtain rfl := Except.ok.inj ha
    exact h
  | succ count ih =>
    obtain ⟨o₁, ho₁, ha⟩ := bind_eq_ok_iff.1 ha
    have := ih (h.addVar rfl ho₁) ha
    rwa [Nat.add_right_comm] at this

theorem Offers.undo (h : o.Offers vars free) (hl : InRange vars l.var) (hu : o.undo l = .ok o') :
    o'.Offers vars fun v => free v ∨ v = l.var := by
  cases o with
  | activity a =>
    obtain ⟨a', ha', hu⟩ := bind_eq_ok_iff.1 hu
    obtain rfl := Except.ok.inj hu
    obtain ⟨positive, -, ha'⟩ := bind_eq_ok_iff.1 ha'
    obtain ⟨heap, hheap, ha'⟩ := bind_eq_ok_iff.1 ha'
    obtain rfl := Except.ok.inj ha'
    obtain ⟨hlinked, hqueues⟩ := Heap.insert_eq_ok h.1 hheap
    refine ⟨hlinked, fun v hv => ?_, fun v hv hf => (hqueues v).2 (hf.imp_left (h.2.2 v hv))⟩
    rcases (hqueues v).1 hv with hv | rfl
    · exact h.2.1 v hv
    · exact hl
  | uniform u =>
    obtain rfl := Except.ok.inj hu
    exact h

theorem Offers.undoAll {ls : List Literal} (h : o.Offers vars free)
    (hls : ∀ l ∈ ls, InRange vars l.var) (hu : o.undoAll ls = .ok o') :
    o'.Offers vars fun v => free v ∨ ∃ l ∈ ls, v = l.var := by
  induction ls generalizing o free with
  | nil =>
    obtain rfl := Except.ok.inj hu
    exact h.mono fun v hv => by simpa using hv
  | cons l ls ih =>
    obtain ⟨hl, hls'⟩ := List.forall_mem_cons.1 hls
    obtain ⟨o₁, ho₁, hu⟩ := bind_eq_ok_iff.1 hu
    refine (ih (h.undo hl ho₁) hls' hu).mono fun v hv => ?_
    rwa [List.exists_mem_cons_iff, ← or_assoc] at hv

/-- After a return to an earlier level, what is unassigned again is offered. -/
theorem Covers.undoTo {n : Nat} (h : o.Covers t) (ht : t.Valid)
    (hu : o.undoAll (t.undoTo n).2 = .ok o') : o'.Covers (t.undoTo n).1 := by
  unfold Covers at h ⊢
  rw [Trail.vars_undoTo]
  have hnamed : ∀ l ∈ (t.undoTo n).2, InRange t.vars l.var :=
    fun l hl => ht.names_of_holds (ht.mem_undone.1 hl).1
  refine (h.undoAll hnamed hu).mono fun v hv => ?_
  cases hm : t.mark? v with
  | none => exact Or.inl rfl
  | some m =>
    right
    refine ⟨⟨v, m.negative⟩, ht.mem_undone.2 ⟨Trail.holds_mk hm, ?_⟩, rfl⟩
    rw [Trail.levelOf_eq hm]
    by_contra hle
    have := ht.mark?_undoTo.2 ⟨hm, Nat.le_of_not_lt hle⟩
    rw [hv] at this
    exact absurd this (by simp)

/-! ## Picking -/

theorem literal_var {b : Bool} (h : v.id < Var.signedLimit) : (v.literal b).var = v := by
  obtain ⟨i⟩ := v
  simp only [Var.literal, Var.mk.injEq]
  exact Nat.mod_eq_of_lt h

theorem popUnassigned_eq_ok {fuel : Nat} {heap heap' : Heap Float} {picked : Option Var}
    (hl : heap.Linked) (hsmall : ∀ v, heap.Queues v → v.id < Var.signedLimit)
    (hfuel : heap.queue.size ≤ fuel) (h : Activity.popUnassigned t fuel heap = .ok (picked, heap')) :
    heap'.Linked ∧ (∀ v, heap'.Queues v → heap.Queues v) ∧
      match picked with
      | none => ∀ v, heap.Queues v → t.mark? v ≠ none
      | some v => heap.Queues v ∧ t.mark? v = none ∧
          ∀ u, heap.Queues u → t.mark? u = none → u ≠ v → heap'.Queues u := by
  induction fuel generalizing heap with
  | zero =>
    obtain ⟨rfl, rfl⟩ := Prod.mk.inj (Except.ok.inj h)
    refine ⟨hl, fun v hv => hv, ?_⟩
    rintro v ⟨i, hi⟩
    have := (Array.getElem?_eq_some_iff.1 hi).1
    omega
  | succ fuel ih =>
    rw [Activity.popUnassigned] at h
    split at h
    · next hnone =>
      obtain ⟨rfl, rfl⟩ := Prod.mk.inj (Except.ok.inj h)
      exact ⟨hl, fun v hv => hv, fun v hv => absurd hv (Heap.pop_eq_none hnone v)⟩
    · next v heap₁ hpop =>
      obtain ⟨hl₁, hv, hsize, hqueues⟩ := Heap.pop_eq_some hl hpop
      obtain ⟨b, hb, h⟩ := bind_eq_ok_iff.1 h
      obtain ⟨-, -, hassigned⟩ := Trail.isAssigned_eq_ok hb
      rw [Var.positive, literal_var (hsmall v hv)] at hassigned
      split at h
      · next htrue =>
        have hmark : t.mark? v ≠ none := by
          rw [htrue] at hassigned
          intro hnone
          simp [hnone] at hassigned
        obtain ⟨hl', hsub, hpicked⟩ := ih hl₁ (fun u hu => hsmall u ((hqueues u).1 hu).1)
          (by omega) h
        refine ⟨hl', fun u hu => ((hqueues u).1 (hsub u hu)).1, ?_⟩
        have hstays : ∀ u, heap.Queues u → t.mark? u = none → heap₁.Queues u := fun u hu hnone =>
          (hqueues u).2 ⟨hu, fun he => hmark (he ▸ hnone)⟩
        cases picked with
        | none =>
          intro u hu hnone
          exact hpicked u (hstays u hu hnone) hnone
        | some w =>
          obtain ⟨hw, hwnone, hrest⟩ := hpicked
          exact ⟨((hqueues w).1 hw).1, hwnone, fun u hu hnone => hrest u (hstays u hu hnone) hnone⟩
      · next hfalse =>
        obtain ⟨rfl, rfl⟩ := Prod.mk.inj (Except.ok.inj h)
        refine ⟨hl₁, fun u hu => ((hqueues u).1 hu).1, hv, ?_, fun u hu _ hne => (hqueues u).2 ⟨hu, hne⟩⟩
        rw [hassigned] at hfalse
        simpa using hfalse

namespace Uniform

variable {σ : Type} {u u' : Uniform σ}

theorem mem_ringFrom (u : Uniform σ) (i : Nat) (v : Var) : v ∈ u.ringFrom i ↔ v ∈ u.vars.toList := by
  unfold ringFrom
  rw [List.mem_append, or_comm, ← List.mem_append, List.take_append_drop]

theorem firstUnassigned_eq_ok {vs : List Var} {found : Option Var}
    (hsmall : ∀ v ∈ vs, v.id < Var.signedLimit) (h : firstUnassigned t vs = .ok found) :
    match found with
    | none => ∀ v ∈ vs, t.mark? v ≠ none
    | some v => v ∈ vs ∧ t.mark? v = none := by
  induction vs with
  | nil =>
    obtain rfl := Except.ok.inj h
    simp
  | cons v vs ih =>
    obtain ⟨hv, hvs⟩ := List.forall_mem_cons.1 hsmall
    obtain ⟨b, hb, h⟩ := bind_eq_ok_iff.1 h
    obtain ⟨-, -, hassigned⟩ := Trail.isAssigned_eq_ok hb
    rw [Var.positive, literal_var hv] at hassigned
    split at h
    · next htrue =>
      have hmark : t.mark? v ≠ none := by
        rw [htrue] at hassigned
        intro hnone
        simp [hnone] at hassigned
      have hrest := ih hvs h
      cases found with
      | none => exact List.forall_mem_cons.2 ⟨hmark, hrest⟩
      | some w => exact ⟨List.mem_cons_of_mem v hrest.1, hrest.2⟩
    · next hfalse =>
      obtain rfl := Except.ok.inj h
      refine ⟨List.mem_cons_self, ?_⟩
      rw [hassigned] at hfalse
      simpa using hfalse

variable [RandomSource σ] {picked : Option Literal}

theorem vars_select (h : u.select t = .ok (picked, u')) : u'.vars = u.vars := by
  unfold select at h
  split at h
  · obtain ⟨-, rfl⟩ := Prod.mk.inj (Except.ok.inj h)
    rfl
  · obtain ⟨found, -, h⟩ := bind_eq_ok_iff.1 h
    cases found with
    | none =>
      obtain ⟨-, rfl⟩ := Prod.mk.inj (Except.ok.inj h)
      rfl
    | some v =>
      obtain ⟨-, rfl⟩ := Prod.mk.inj (Except.ok.inj h)
      rfl

/-- Whatever is drawn, the pick is an unassigned variable of the list, and there is none only if the
whole list is assigned. -/
theorem select_eq_ok (hsmall : ∀ v ∈ u.vars.toList, v.id < Var.signedLimit)
    (h : u.select t = .ok (picked, u')) :
    match picked with
    | none => ∀ v ∈ u.vars.toList, t.mark? v ≠ none
    | some l => l.var ∈ u.vars.toList ∧ t.mark? l.var = none := by
  unfold select at h
  split at h
  · next hempty =>
    obtain ⟨rfl, -⟩ := Prod.mk.inj (Except.ok.inj h)
    have hnil : u.vars = #[] := by simpa using hempty
    simp [hnil]
  · obtain ⟨found, hfound, h⟩ := bind_eq_ok_iff.1 h
    have hpicked := firstUnassigned_eq_ok
      (fun v hv => hsmall v ((u.mem_ringFrom _ v).1 hv)) hfound
    cases found with
    | none =>
      obtain ⟨rfl, -⟩ := Prod.mk.inj (Except.ok.inj h)
      exact fun v hv => hpicked v ((u.mem_ringFrom _ v).2 hv)
    | some v =>
      obtain ⟨rfl, -⟩ := Prod.mk.inj (Except.ok.inj h)
      obtain ⟨hv, hnone⟩ := hpicked
      replace hv := (u.mem_ringFrom _ v).1 hv
      simp only [literal_var (hsmall v hv)]
      exact ⟨hv, hnone⟩

end Uniform

/-- What a pick promises: if there is none, every variable is assigned; a picked literal is
unassigned, and the others are offered further. -/
def Picks (t : Trail) (o' : Order) : Option Literal → Prop
  | none => (∀ v, InRange t.vars v → t.mark? v ≠ none) ∧ o'.Covers t
  | some l => t.mark? l.var = none ∧ t.Names l ∧
      o'.Offers t.vars fun v => t.mark? v = none ∧ v ≠ l.var

theorem select_eq_ok {picked : Option Literal} (h : o.Covers t) (hvars : t.vars < Var.signedLimit)
    (hs : o.select t = .ok (picked, o')) : Picks t o' picked := by
  have hsmall : ∀ v, InRange t.vars v → v.id < Var.signedLimit :=
    fun v hv => Nat.lt_of_le_of_lt hv.2 hvars
  cases o with
  | activity a =>
    obtain ⟨hlinked, hin, hfree⟩ := h
    obtain ⟨⟨l, a'⟩, ha', hs⟩ := bind_eq_ok_iff.1 hs
    obtain ⟨rfl, rfl⟩ := Prod.mk.inj (Except.ok.inj hs)
    obtain ⟨⟨v, heap⟩, hpop, ha'⟩ := bind_eq_ok_iff.1 ha'
    obtain ⟨hl', hsub, hpicked⟩ := popUnassigned_eq_ok hlinked (fun v hv => hsmall v (hin v hv))
      (Nat.le_refl _) hpop
    cases v with
    | none =>
      obtain ⟨rfl, rfl⟩ := Prod.mk.inj (Except.ok.inj ha')
      have hall : ∀ v, InRange t.vars v → t.mark? v ≠ none := fun v hv hnone =>
        hpicked v (hfree v hv hnone) hnone
      exact ⟨hall, hl', fun v hv => hin v (hsub v hv), fun v hv hnone => absurd hnone (hall v hv)⟩
    | some v =>
      obtain ⟨positive, -, ha'⟩ := bind_eq_ok_iff.1 ha'
      obtain ⟨rfl, rfl⟩ := Prod.mk.inj (Except.ok.inj ha')
      obtain ⟨hv, hnone, hrest⟩ := hpicked
      have hvar : (v.literal (!positive)).var = v := literal_var (hsmall v (hin v hv))
      simp only [Picks, Trail.Names, hvar]
      exact ⟨hnone, hin v hv, hl', fun u hu => hin u (hsub u hu),
        fun u hu hf => hrest u (hfree u hu hf.1) hf.1 hf.2⟩
  | uniform u =>
    obtain ⟨hin, hall⟩ := h
    obtain ⟨⟨l, u'⟩, hu', hs⟩ := bind_eq_ok_iff.1 hs
    obtain ⟨rfl, rfl⟩ := Prod.mk.inj (Except.ok.inj hs)
    have hpicked := Uniform.select_eq_ok (fun v hv => hsmall v (hin v hv)) hu'
    have hlists : (∀ v ∈ u'.vars.toList, InRange t.vars v) ∧
        ∀ v, InRange t.vars v → v ∈ u'.vars.toList := (Uniform.vars_select hu').symm ▸ ⟨hin, hall⟩
    cases l with
    | none => exact ⟨fun v hv => hpicked v (hall v hv), hlists⟩
    | some l => exact ⟨hpicked.2, hin l.var hpicked.1, hlists⟩

end Cdcl.Order
