import Cdcl.Proofs.Kernel.Invariant

/-!
# What propagation looks at

Two trails are twins if the same literals are true on them, in the same order, and the same of them
wait; the levels and the reasons may differ. Propagation goes the same way on twins
(`Kernel.Twin.propagate`). A trail has a twin on which every literal is at level 0 and has no reason
(`Trail.flat`), so what propagation finds does not depend on how the trail came about.
-/

namespace Cdcl
set_option autoImplicit false

namespace Trail

/-- The same literals are true in the same order, and the same wait for propagation. -/
structure Twin (t t' : Trail) : Prop where
  vars : t'.vars = t.vars
  truth : t'.truth = t.truth
  literals : t'.literals = t.literals
  head : t'.head = t.head
  cells : t'.sizes = t.sizes

variable {t t' u : Trail} {l k : Literal} {ls : List Literal} {r : Option ClauseRef}

theorem Twin.holds (h : t.Twin t') : t'.holds l = t.holds l := by
  unfold Trail.holds
  rw [h.truth]

theorem Twin.isSatisfied (h : t.Twin t') : t'.isSatisfied l = t.isSatisfied l := by
  unfold Trail.isSatisfied
  rw [h.truth]

theorem Twin.isFalsified (h : t.Twin t') : t'.isFalsified l = t.isFalsified l :=
  h.isSatisfied (l := -l)

theorem Twin.requireVar (h : t.Twin t') {v : Var} : t'.requireVar v = t.requireVar v := by
  have hlevels : t'.levels.cells.size = t.levels.cells.size := congrArg (·.2.1) h.cells
  have hreasons : t'.reasons.cells.size = t.reasons.cells.size := congrArg (·.2.2.1) h.cells
  have hpositions : t'.positions.cells.size = t.positions.cells.size := congrArg (·.2.2.2) h.cells
  unfold Trail.requireVar VarMap.covers
  rw [hlevels, hreasons, hpositions]

theorem Twin.waiting (h : t.Twin t') : t'.literals[t'.head]? = t.literals[t.head]? := by
  rw [h.literals, h.head]

theorem Twin.push {r' : Option ClauseRef} (h : t.Twin t') : (t.push l r).Twin (t'.push l r') where
  vars := h.vars
  truth := congrArg (·.put l true) h.truth
  literals := congrArg (·.push l) h.literals
  head := h.head
  cells := sizes_push.trans (h.cells.trans sizes_push.symm)

theorem Twin.assign (h : t.Twin t') {o : Option Trail} (ho : t.assign l r = .ok o) :
    ∃ o', t'.assign l r = .ok o' ∧ Option.Rel Twin o o' := by
  unfold Trail.assign at ho ⊢
  rw [h.isFalsified, h.isSatisfied, h.requireVar]
  obtain ⟨fals, hfals, ho⟩ := bind_eq_ok_iff.1 ho
  rw [hfals]
  cases fals with
  | true =>
    obtain rfl := Except.ok.inj ho
    exact ⟨none, rfl, .none⟩
  | false =>
    obtain ⟨sat, hsat, ho⟩ := bind_eq_ok_iff.1 ho
    rw [hsat]
    cases sat with
    | true =>
      obtain rfl := Except.ok.inj ho
      exact ⟨some t', rfl, .some h⟩
    | false =>
      obtain ⟨_, hreq, ho⟩ := bind_eq_ok_iff.1 ho
      rw [hreq]
      obtain rfl := Except.ok.inj ho
      exact ⟨some (t'.push l r), rfl, .some h.push⟩

/-- The literals of the trail without levels and reasons. -/
def flat (t : Trail) : Trail :=
  { t with
    levels := ⟨t.levels.cells.map fun _ => 0⟩
    reasons := ⟨t.reasons.cells.map fun _ => none⟩
    limits := #[] }

theorem levelOf_flat {v : Var} : t.flat.levelOf v = 0 := by
  unfold levelOf flat VarMap.getD
  rw [Array.getD_eq_getD_getElem?, Array.getElem?_map]
  cases t.levels.cells[v.id]? <;> rfl

theorem reasonOf_flat {v : Var} : t.flat.reasonOf v = none := by
  unfold reasonOf flat VarMap.getD
  rw [Array.getD_eq_getD_getElem?, Array.getElem?_map]
  cases t.reasons.cells[v.id]? <;> rfl

theorem holds_flat : t.flat.holds l = t.holds l := rfl

theorem sizes_flat : t.flat.sizes = t.sizes := by
  simp [sizes, flat]

theorem mark?_flat {v : Var} :
    t.flat.mark? v = (t.mark? v).map fun m => { m with level := 0, reason := none } := by
  have hmark : ∀ negative, t.flat.markOf v negative =
      { t.markOf v negative with level := 0, reason := none } := fun negative => by
    rw [markOf, levelOf_flat, reasonOf_flat]
    rfl
  unfold mark?
  rw [holds_flat, holds_flat, hmark, hmark]
  split
  · rfl
  · split <;> rfl

theorem mark?_flat_eq_some {v : Var} {m : Mark} : t.flat.mark? v = some m ↔
    ∃ n, t.mark? v = some n ∧ m = { n with level := 0, reason := none } := by
  rw [mark?_flat, Option.map_eq_some_iff]
  simp only [eq_comm]

theorem place_flat {v : Var} : t.flat.place v = t.place v := by
  unfold place
  rw [mark?_flat]
  cases t.mark? v <;> rfl

theorem twin_flat : t.flat.Twin t := ⟨rfl, rfl, rfl, rfl, sizes_flat.symm⟩

theorem Valid.flat (h : t.Valid) : t.flat.Valid where
  room := by
    unfold Sized
    rw [sizes_flat]
    exact h.room
  consistent := h.consistent
  marked := by
    intro i l hl
    obtain ⟨m, hm, hneg, hpos⟩ := h.marked hl
    exact ⟨_, mark?_flat_eq_some.2 ⟨m, hm, rfl⟩, hneg, hpos⟩
  placed := by
    intro v m hm
    obtain ⟨n, hn, rfl⟩ := mark?_flat_eq_some.1 hm
    exact h.placed (m := n) hn
  levels := by
    intro v m hm
    obtain ⟨n, -, rfl⟩ := mark?_flat_eq_some.1 hm
    rfl
  named := by
    intro v m hm
    obtain ⟨n, hn, rfl⟩ := mark?_flat_eq_some.1 hm
    exact h.named (m := n) hn
  cleared := fun _ => ⟨levelOf_flat, reasonOf_flat⟩
  sorted := List.Pairwise.nil
  limited := fun n hn => absurd hn List.not_mem_nil
  head_le := h.head_le

end Trail

namespace Constraint

variable {t t' : Trail} {c : Constraint} {fals : Literal} {ls : List Literal}

theorem splitAtOpen_twin (h : t.Twin t') : splitAtOpen t' ls = splitAtOpen t ls := by
  induction ls with
  | nil => rfl
  | cons l ls ih => rw [splitAtOpen, splitAtOpen, h.isFalsified, ih]

theorem someFalsified_twin (h : t.Twin t') : someFalsified t' ls = someFalsified t ls := by
  induction ls with
  | nil => rfl
  | cons l ls ih => rw [someFalsified, someFalsified, h.isFalsified, ih]

theorem reactWatched_twin {head : Literal} (h : t.Twin t') :
    reactWatched t' head fals ls = reactWatched t head fals ls := by
  unfold reactWatched
  rw [h.isSatisfied, splitAtOpen_twin h]

theorem react_twin (h : t.Twin t') : c.react t' fals = c.react t fals := by
  cases c with
  | binary a b => simp only [react, h.requireVar]
  | watched hd tl rest => simp only [react, reactWatched_twin h]
  | atLeast d watch rest => simp only [react, splitAtOpen_twin h, someFalsified_twin h]

end Constraint

namespace Kernel

/-- The same kernel on a twin of the trail. -/
structure Twin (k k' : Kernel) : Prop where
  trail : k.trail.Twin k'.trail
  watches : k'.watches = k.watches
  store : k'.store = k.store
  propagations : k'.propagations = k.propagations

variable {k k₁ k' : Kernel} {fals l : Literal} {ref : ClauseRef} {refs : List ClauseRef}
  {ls : List Literal} {b : Bool} {o : Option ClauseRef} {t t' u : Trail} {r : Reaction}

theorem forceAll_twin (h : t.Twin t') (hu : forceAll ref ls t = .ok (b, u)) :
    ∃ u', forceAll ref ls t' = .ok (b, u') ∧ u.Twin u' := by
  induction ls generalizing t t' with
  | nil =>
    obtain ⟨rfl, rfl⟩ := Prod.mk.inj (Except.ok.inj hu)
    exact ⟨t', rfl, h⟩
  | cons l ls ih =>
    obtain ⟨o, ho, hu⟩ := bind_eq_ok_iff.1 hu
    obtain ⟨o', ho', hrel⟩ := h.assign ho
    cases hrel with
    | none =>
      obtain ⟨rfl, rfl⟩ := Prod.mk.inj (Except.ok.inj hu)
      exact ⟨t', bind_eq_ok_iff.2 ⟨_, ho', rfl⟩, h⟩
    | some h₁ =>
      obtain ⟨u', hu', htwin⟩ := ih h₁ hu
      exact ⟨u', bind_eq_ok_iff.2 ⟨_, ho', hu'⟩, htwin⟩

theorem Twin.apply (h : k.Twin k') (hv : k.apply ref fals r = .ok (b, k₁)) :
    ∃ k₁', k'.apply ref fals r = .ok (b, k₁') ∧ k₁.Twin k₁' := by
  cases r with
  | keep | move l | conflict =>
    obtain ⟨w, hw, hv⟩ := bind_eq_ok_iff.1 hv
    obtain ⟨rfl, rfl⟩ := Prod.mk.inj (Except.ok.inj hv)
    exact ⟨_, bind_eq_ok_iff.2 ⟨w, h.watches ▸ hw, rfl⟩, h.trail, rfl, h.store, h.propagations⟩
  | force ls =>
    obtain ⟨w, hw, hv⟩ := bind_eq_ok_iff.1 hv
    obtain ⟨⟨b', u⟩, hu, hv⟩ := bind_eq_ok_iff.1 hv
    obtain ⟨rfl, rfl⟩ := Prod.mk.inj (Except.ok.inj hv)
    obtain ⟨u', hu', htwin⟩ := forceAll_twin h.trail hu
    exact ⟨_, bind_eq_ok_iff.2 ⟨w, h.watches ▸ hw, bind_eq_ok_iff.2 ⟨_, hu', rfl⟩⟩, htwin, rfl,
      h.store, h.propagations⟩

theorem Twin.visit (h : k.Twin k') (hv : k.visit ref fals = .ok (b, k₁)) :
    ∃ k₁', k'.visit ref fals = .ok (b, k₁') ∧ k₁.Twin k₁' := by
  obtain ⟨e, he, hv⟩ := bind_eq_ok_iff.1 hv
  obtain ⟨⟨c', r⟩, hreact, hv⟩ := bind_eq_ok_iff.1 hv
  have hturned : Twin { k with store := k.store.put ref { e with constraint := c' } }
      { k' with store := k'.store.put ref { e with constraint := c' } } :=
    ⟨h.trail, h.watches, by rw [h.store], h.propagations⟩
  obtain ⟨k₁', hk₁', htwin⟩ := hturned.apply hv
  exact ⟨k₁', bind_eq_ok_iff.2 ⟨e, h.store ▸ he,
    bind_eq_ok_iff.2 ⟨_, (Constraint.react_twin h.trail).trans hreact, hk₁'⟩⟩, htwin⟩

theorem Twin.visitAll (h : k.Twin k') (hv : visitAll fals refs k = .ok (o, k₁)) :
    ∃ k₁', Kernel.visitAll fals refs k' = .ok (o, k₁') ∧ k₁.Twin k₁' := by
  induction refs generalizing k k' with
  | nil =>
    obtain ⟨rfl, rfl⟩ := Prod.mk.inj (Except.ok.inj hv)
    exact ⟨k', rfl, h⟩
  | cons ref refs ih =>
    obtain ⟨⟨b, k₂⟩, hk₂, hv⟩ := bind_eq_ok_iff.1 hv
    obtain ⟨k₂', hk₂', h₂⟩ := h.visit hk₂
    cases b with
    | true =>
      obtain ⟨k₁', hk₁', htwin⟩ := ih h₂ hv
      exact ⟨k₁', bind_eq_ok_iff.2 ⟨_, hk₂', hk₁'⟩, htwin⟩
    | false =>
      obtain ⟨w, hw, hv⟩ := bind_eq_ok_iff.1 hv
      obtain ⟨rfl, rfl⟩ := Prod.mk.inj (Except.ok.inj hv)
      refine ⟨_, bind_eq_ok_iff.2 ⟨_, hk₂', bind_eq_ok_iff.2 ⟨w, h₂.watches ▸ hw, rfl⟩⟩, ?_, rfl,
        h₂.store, h₂.propagations⟩
      exact ⟨h₂.trail.vars, h₂.trail.truth, h₂.trail.literals,
        congrArg Array.size h₂.trail.literals, h₂.trail.cells⟩

theorem Twin.propagateFrom {fuel : Nat} (h : k.Twin k')
    (hp : propagateFrom fuel k = .ok (o, k₁)) :
    ∃ k₁', Kernel.propagateFrom fuel k' = .ok (o, k₁') ∧ k₁.Twin k₁' := by
  induction fuel generalizing k k' with
  | zero =>
    obtain ⟨rfl, rfl⟩ := Prod.mk.inj (Except.ok.inj hp)
    exact ⟨k', rfl, h⟩
  | succ fuel ih =>
    unfold Kernel.propagateFrom Trail.next at hp ⊢
    rw [h.trail.waiting]
    cases hl : k.trail.literals[k.trail.head]? with
    | none =>
      rw [hl] at hp
      obtain ⟨rfl, rfl⟩ := Prod.mk.inj (Except.ok.inj hp)
      exact ⟨k', rfl, h⟩
    | some l =>
      rw [hl] at hp
      obtain ⟨⟨o₁, k₂⟩, hk₂, hp⟩ := bind_eq_ok_iff.1 hp
      obtain ⟨⟨list, w⟩, hw, hk₂⟩ := bind_eq_ok_iff.1 hk₂
      have hnext : Twin
          { k with
            trail.head := k.trail.head + 1
            watches := w
            propagations := k.propagations + 1 }
          { k' with
            trail.head := k'.trail.head + 1
            watches := w
            propagations := k'.propagations + 1 } :=
        ⟨⟨h.trail.vars, h.trail.truth, h.trail.literals, congrArg (· + 1) h.trail.head,
          h.trail.cells⟩, rfl, h.store, congrArg (· + 1) h.propagations⟩
      obtain ⟨k₂', hk₂', h₂⟩ := hnext.visitAll hk₂
      have hliteral : propagateLiteral { k' with trail.head := k'.trail.head + 1 } l =
          .ok (o₁, k₂') := bind_eq_ok_iff.2 ⟨_, h.watches ▸ hw, hk₂'⟩
      cases o₁ with
      | some conflict =>
        obtain ⟨rfl, rfl⟩ := Prod.mk.inj (Except.ok.inj hp)
        exact ⟨k₂', bind_eq_ok_iff.2 ⟨_, hliteral, rfl⟩, h₂⟩
      | none =>
        obtain ⟨k₁', hk₁', htwin⟩ := ih h₂ hp
        exact ⟨k₁', bind_eq_ok_iff.2 ⟨_, hliteral, hk₁'⟩, htwin⟩

/-- Propagation has the same outcome on twins. -/
theorem Twin.propagate (h : k.Twin k') (hp : k.propagate = .ok (o, k₁)) :
    ∃ k₁', k'.propagate = .ok (o, k₁') ∧ k₁.Twin k₁' := by
  have hcells : k'.trail.positions.cells.size = k.trail.positions.cells.size :=
    congrArg (·.2.2.2) h.trail.cells
  unfold Kernel.propagate
  rw [hcells]
  exact h.propagateFrom hp

end Kernel
end Cdcl
