import Cdcl.Proofs.Kernel.Closure
import Cdcl.Proofs.Kernel.Twin
import Cdcl.Proofs.Solver.Teaching
import Cdcl.Proofs.Solver.Watching

/-!
# Propagation computes the closure

All that propagation needs is in `Kernel.Fit`: a valid trail, room for the watch lists, constraints
over distinct known variables, and watches in order. Nothing is asked of levels and reasons, as
propagation does not look at them: without them a fit kernel is ready (`Fit.ready`). From a fit
kernel propagation reaches the closure of the trail or, if this contains a literal and its negation,
a violated constraint, whatever the order of the watch lists (`Fit.propagate_closure`).
-/

namespace Cdcl
set_option autoImplicit false

namespace Kernel

/-- The watches of constraints over distinct known variables are in order on a valid trail: lists
and constraints agree, and if a watched literal is false and was taken off the queue, then the other
watched literals of the constraint are true. -/
structure Fit (k : Kernel) : Prop where
  trail : k.trail.Valid
  room : k.watches.Room k.trail.vars
  shape : ∀ ref e, k.store.get? ref = some e → e.constraint.Valid
  named : ∀ ref e, k.store.get? ref = some e → ∀ l ∈ e.constraint.literals, k.trail.Names l
  listed : k.Listed
  guarded : ∀ ref e, k.store.get? ref = some e → ∀ w ∈ e.constraint.watching,
    k.trail.holds (-w) = true → k.trail.place w.var < k.trail.head →
    ∀ u ∈ e.constraint.watching, u ≠ w → k.trail.holds u = true

variable {k k' : Kernel} {o : Option ClauseRef} {w : Watches}

theorem Ready.fit (h : k.Ready) (hroom : k.watches.Room k.trail.vars) : k.Fit where
  trail := h.sound.trail
  room := hroom
  shape := fun _ _ he => h.sound.shape he
  named := fun _ _ he => h.sound.named he
  listed := h.listed
  guarded := fun ref e he w hw hfalse hplace u hu hne =>
    (h.watched.guarded ref e he w hw hfalse hplace u hu hne).1

theorem Listed.indexed (h : k.Listed)
    (hshape : ∀ ref e, k.store.get? ref = some e → e.constraint.Valid) : k.Indexed := by
  intro ref l
  cases he : k.store.get? ref with
  | some e =>
    rw [h.watching ref e he, Store.watching_eq he, (hshape ref e he).nodup_watching.count]
  | none =>
    rw [Store.watching_of_none he, List.count_nil]
    refine List.count_eq_zero_of_not_mem fun hin => ?_
    obtain ⟨e, he'⟩ := h.stored l ref (Array.mem_toList_iff.1 hin)
    exact absurd (he.symm.trans he') (by simp)

/-- Other lists with the same entries are as good. -/
theorem Fit.reorder (h : k.Fit) (hroom : w.Room k.trail.vars)
    (hperm : ∀ l, (w.lists.getD l #[]).toList.Perm (k.watches.lists.getD l #[]).toList) :
    Fit { k with watches := w } where
  trail := h.trail
  room := hroom
  shape := h.shape
  named := h.named
  listed :=
    ⟨fun ref e he l => ((hperm l).count_eq ref).trans (h.listed.watching ref e he l),
      fun l ref href => h.listed.stored l ref
        (Array.mem_toList_iff.1 ((hperm l).mem_iff.1 (Array.mem_toList_iff.2 href)))⟩
  guarded := h.guarded

/-- Without levels and reasons a fit kernel is ready. -/
theorem Fit.ready (h : k.Fit) : Kernel.Ready { k with trail := k.trail.flat } where
  sound := by
    refine ⟨h.trail.flat, fun n hn => absurd hn List.not_mem_nil, fun he => h.shape _ _ he,
      fun he => h.named _ _ he, fun hm hr => ?_⟩
    obtain ⟨n, -, rfl⟩ := Trail.mark?_flat_eq_some.1 hm
    exact absurd hr (by simp)
  indexed := h.listed.indexed h.shape
  stable := by
    intro ref e he w hw m hm hneg hpassed u hu hne
    change k.trail.flat.mark? w.var = some m at hm
    change k.trail.flat.holds u = true ∧ k.trail.flat.levelOf u.var ≤ m.level
    have hfalse : k.trail.holds (-w) = true :=
      Trail.holds_flat.symm.trans (Trail.holds_neg_of_mark hm hneg)
    have hplace : k.trail.place w.var < k.trail.head := by
      rw [← Trail.place_flat, Trail.place_eq hm]
      exact hpassed.1
    have htrue := h.guarded ref e he w hw hfalse hplace u hu hne
    refine ⟨Trail.holds_flat.trans htrue, ?_⟩
    obtain ⟨i, hi⟩ := Trail.exists_mark (Trail.holds_flat.trans htrue)
    obtain ⟨n, -, rfl⟩ := Trail.mark?_flat_eq_some.1 hi
    rw [Trail.levelOf_eq hi]
    exact Nat.zero_le _

/-- How propagation ends: with the closure if this is consistent, or with a violated constraint, an
empty queue and lists in order. -/
structure Reaches (k k' : Kernel) (o : Option ClauseRef) : Prop where
  closed : o = none → IsLeast { S | k.Closes S } k'.trail.truths
  unviolated : o = none → ∀ ref e, k'.store.get? ref = some e → ¬ e.constraint.Violated k'.trail
  violated : ∀ ref, o = some ref →
    ∃ e, k'.store.get? ref = some e ∧ e.constraint.Violated k'.trail
  idle : ∀ ref, o = some ref → k'.trail.next = none
  listed : ∀ ref, o = some ref → k'.Listed
  contradiction : o ≠ none ↔ ∃ l, l ∈ k.closure ∧ -l ∈ k.closure

/-- From a kernel without levels and reasons. -/
theorem reaches_of_ends (h : k'.EndsWith o) (hext : k.trail.Extends k'.trail)
    (hs : k.store.Alike k'.store) : k.Reaches k' o := by
  have hleast := k.isLeast_closure
  cases o with
  | none =>
    obtain ⟨hready, hhead⟩ := h
    have hsub := hready.sound.truths_subset_closure hext hs
    have hcloses : k.Closes k'.trail.truths :=
      ⟨fun _ hl => hext.holds hl, (hready.closed_truths hhead).of_alike hs.symm⟩
    refine ⟨fun _ => ⟨hcloses, fun S hS => hsub.trans (hleast.2 hS)⟩,
      fun _ ref e he => hready.not_violated hhead he, by simp, by simp, by simp,
      ⟨fun hno => absurd rfl hno, ?_⟩⟩
    rintro ⟨l, hl, hneg⟩ -
    have hfalse : k'.trail.holds (-l) = true := hleast.2 hcloses hneg
    have htrue : k'.trail.holds l = true := hleast.2 hcloses hl
    rw [hready.sound.trail.consistent htrue] at hfalse
    exact absurd hfalse (by simp)
  | some conflict =>
    have hclash : k'.Clash conflict := h
    refine ⟨by simp, by simp, ?_, ?_, fun _ _ => hclash.listed, ?_⟩
    · rintro _ ⟨⟩
      obtain ⟨e, he, hviolated, -⟩ := hclash.violated
      exact ⟨e, he, hviolated⟩
    · rintro _ ⟨⟩
      unfold Trail.next
      rw [Array.getElem?_eq_none (Nat.le_of_eq hclash.caught_up.symm)]
    · have hcloses : k'.Closes k.closure :=
        ⟨hclash.sound.truths_subset_closure hext hs, hleast.1.closed.of_alike hs⟩
      exact iff_of_true (by simp) (hclash.exists_contradiction hcloses)

theorem Twin.truths (h : k.Twin k') : k'.trail.truths = k.trail.truths := by
  unfold Trail.truths
  simp only [h.trail.holds]

theorem Twin.violated_iff (h : k.Twin k') (c : Constraint) :
    c.Violated k'.trail ↔ c.Violated k.trail := by
  unfold Constraint.Violated
  simp only [h.trail.holds]

theorem Reaches.of_twins {k₁ k₁' : Kernel} (h : k.Reaches k' o) (hk : k.Twin k₁)
    (hk' : k'.Twin k₁') : k₁.Reaches k₁' o where
  closed := by
    simp only [closes_congr hk.truths hk.store, hk'.truths]
    exact h.closed
  unviolated := by
    simp only [hk'.violated_iff, hk'.store]
    exact h.unviolated
  violated := by
    simp only [hk'.violated_iff, hk'.store]
    exact h.violated
  idle := by
    intro ref ho
    have hidle := h.idle ref ho
    unfold Trail.next at hidle ⊢
    rw [hk'.trail.waiting]
    split at hidle
    · exact absurd hidle (by simp)
    · rfl
  listed := by
    intro ref ho
    obtain ⟨hwatching, hstored⟩ := h.listed ref ho
    rw [← hk'.watches, ← hk'.store] at hwatching
    rw [← hk'.watches, ← hk'.store] at hstored
    exact ⟨hwatching, hstored⟩
  contradiction := by
    rw [closure_congr hk.truths hk.store]
    exact h.contradiction

theorem Fit.reaches (h : k.Fit) : ∃ o k', k.propagate = .ok (o, k') ∧ k.Reaches k' o := by
  obtain ⟨o, k₁, hk₁, -⟩ := propagate_succeeds h.ready h.room
  obtain ⟨hext, hs, hends⟩ := propagate_eq_ok h.ready hk₁
  have htwin : Twin { k with trail := k.trail.flat } k := ⟨Trail.twin_flat, rfl, rfl, rfl⟩
  obtain ⟨k', hk', htwin'⟩ := htwin.propagate hk₁
  exact ⟨o, k', hk', (reaches_of_ends hends hext hs).of_twins htwin htwin'⟩

/-- Propagation has an outcome. The order of the watch lists may decide which constraint turns out to
be violated, but nothing else. -/
theorem Fit.propagate_closure (h : k.Fit) :
    IsLeast { S | k.Closes S } k.closure ∧
    ∃ o k', k.propagate = .ok (o, k') ∧ k.Reaches k' o ∧
      ∀ w : Watches, w.Room k.trail.vars →
        (∀ l, (w.lists.getD l #[]).toList.Perm (k.watches.lists.getD l #[]).toList) →
        ∃ o₁ k₁, Kernel.propagate { k with watches := w } = .ok (o₁, k₁) ∧
          (o₁ = none ↔ o = none) ∧ (o = none → k₁.trail.truths = k'.trail.truths) := by
  obtain ⟨o, k', hk', hreaches⟩ := h.reaches
  refine ⟨k.isLeast_closure, o, k', hk', hreaches, fun w hroom hperm => ?_⟩
  obtain ⟨o₁, k₁, hk₁, hreaches₁⟩ := (h.reorder hroom hperm).reaches
  have hclosure : Kernel.closure { k with watches := w } = k.closure := closure_congr rfl rfl
  have hcloses : ∀ S, Kernel.Closes { k with watches := w } S ↔ k.Closes S := closes_congr rfl rfl
  have hsame : o₁ = none ↔ o = none := by
    have hcontradiction := hreaches₁.contradiction
    rw [hclosure, ← hreaches.contradiction] at hcontradiction
    exact not_iff_not.1 hcontradiction
  refine ⟨o₁, k₁, hk₁, hsame, fun ho => ?_⟩
  have hleast₁ := hreaches₁.closed (hsame.2 ho)
  simp only [hcloses] at hleast₁
  exact hleast₁.unique (hreaches.closed ho)

end Kernel

open Solver

variable {s : Solver} {F : Formula} {A : List Literal}

/-- Between two steps of a search the kernel is fit for propagation. -/
theorem Solver.Searching.fit (h : s.Searching F A) : s.kernel.Fit :=
  h.sane.ready.fit h.equipped.watches

/-- Two assumptions and two clauses have a contradiction in their closure, and propagation finds
it. -/
theorem Kernel.Fit.propagate_closure_assumptions : ∃ k k' : Kernel, k.Fit ∧
    k.propagate = .ok (some ⟨1⟩, k') ∧ (∃ l, l ∈ k.closure ∧ -l ∈ k.closure) ∧
    (∃ e, k'.store.get? ⟨1⟩ = some e ∧ e.constraint.Violated k'.trail) ∧ k'.Listed := by
  obtain ⟨s, s₁, s₂, hs, hopen, hls, hrounds, hconflict, -⟩ := Reachable.exists_conflict
  obtain ⟨F, hstart⟩ := hs.searching hopen hls .never
  have hfit := (hrounds.searching hstart).fit
  obtain ⟨⟨o, k⟩, hk, hsame⟩ := bind_eq_ok_iff.1 hconflict
  obtain ⟨rfl, -⟩ := Prod.mk.inj (Except.ok.inj hsame)
  obtain ⟨-, o', k', hk', hreaches, -⟩ := Kernel.Fit.propagate_closure hfit
  obtain ⟨rfl, rfl⟩ := Prod.mk.inj (Except.ok.inj (hk.symm.trans hk'))
  exact ⟨_, _, hfit, hk, hreaches.contradiction.1 (by simp), hreaches.violated _ rfl,
    hreaches.listed _ rfl⟩

end Cdcl
