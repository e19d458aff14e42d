import Cdcl.Proofs.Progress.Reachable

/-!
# Watches

Every stored constraint is once on the list of each literal that it watches, and nothing else is on the
lists (`Kernel.Listed`). Once a watched literal is false and was taken off the queue, the other watched
literals of its constraint are true and have been since its level (`Kernel.Guarded`), so no level that
is taken back can make them open before it. Both hold in every solver between two calls, in every
round of a search and after every propagation without conflict (`Reachable.watches_in_order`).
-/

namespace Cdcl
set_option autoImplicit false

namespace Kernel

/-- A stored constraint is once on the list of each literal that it watches and on no other list, and
only stored constraints are on the lists. -/
structure Listed (k : Kernel) : Prop where
  watching : ∀ ref e, k.store.get? ref = some e → ∀ l,
    k.watches.tally l ref = if l ∈ e.constraint.watching then 1 else 0
  stored : ∀ l ref, ref ∈ k.watches.lists.getD l #[] → ∃ e, k.store.get? ref = some e

/-- If a watched literal is false and was taken off the queue, then the other watched literals of the
constraint are true at the same or earlier levels. -/
def Guarded (k : Kernel) : Prop :=
  ∀ ref e, k.store.get? ref = some e → ∀ w ∈ e.constraint.watching,
    k.trail.holds (-w) = true → k.trail.place w.var < k.trail.head →
    ∀ u ∈ e.constraint.watching, u ≠ w →
      k.trail.holds u = true ∧ k.trail.levelOf u.var ≤ k.trail.levelOf w.var

structure Watched (k : Kernel) : Prop where
  listed : k.Listed
  guarded : k.Guarded

variable {k : Kernel} {n : Nat}

theorem Firm.listed (h : k.Firm n) : k.Listed where
  watching := by
    intro ref e he l
    rw [h.indexed, Store.watching_eq he, (h.sound.shape he).nodup_watching.count]
  stored := by
    intro l ref href
    have hpos : 0 < k.watches.tally l ref := List.count_pos_iff.2 (Array.mem_toList_iff.2 href)
    rw [h.indexed] at hpos
    cases he : k.store.get? ref with
    | some e => exact ⟨e, rfl⟩
    | none =>
      rw [Store.watching_of_none he] at hpos
      exact absurd hpos (by simp)

theorem Ready.watched (h : k.Ready) : k.Watched where
  listed := h.listed
  guarded := by
    intro ref e he w hw hfalse hplace u hu hne
    obtain ⟨m, hm, hneg⟩ := h.sound.trail.holds_neg_iff.1 hfalse
    rw [Trail.place_eq hm] at hplace
    rw [Trail.levelOf_eq hm]
    exact h.stable ref e he w hw m hm hneg
      ⟨hplace, Nat.lt_succ_of_le (h.sound.trail.level_le hm)⟩ u hu hne

end Kernel

open Solver

variable {config : Config} {s : Solver}

/-- The watches of an open formula are in order between two calls, in every round of a search that a
call may start, and after the propagation of the round unless it meets a conflict; then the lists are
in order. -/
theorem Reachable.watches_in_order (h : Reachable config s) (hopen : s.refuted = false) :
    s.kernel.Watched ∧
    ∀ raws ls b r₀ restarts, s.literals raws = .ok ls →
      ∀ r s₁, Rounds b ls r₀ (s.atStart ls.length restarts) r s₁ →
        s₁.kernel.Watched ∧
        (∀ s₂, s₁.propagate = .ok (none, s₂) → s₂.kernel.Watched) ∧
        ∀ conflict s₂, s₁.propagate = .ok (some conflict, s₂) → s₂.kernel.Listed := by
  obtain ⟨F, hidle, -⟩ := h.idle hopen
  refine ⟨hidle.ready.watched, fun raws ls b r₀ restarts hls r s₁ hrounds => ?_⟩
  obtain ⟨F, hstart⟩ := h.searching hopen hls restarts
  have hs := (hrounds.searching hstart).sane
  refine ⟨hs.ready.watched, fun s₂ hs₂ => ?_, fun conflict s₂ hs₂ => ?_⟩
  · obtain ⟨-, hends, -⟩ := hs.keeps.propagate hs.ready hs₂
    exact hends.1.watched
  · obtain ⟨-, hends, -⟩ := hs.keeps.propagate hs.ready hs₂
    exact hends.toFirm.listed

/-- A clause has left the list of a variable that was made false. The watches are in order, also after
the first propagation of a search. -/
theorem Reachable.watches_in_order_moved : ∃ s s₂ : Solver,
    Reachable Config.plain s ∧ s.refuted = false ∧
    s.store.get? ⟨0⟩ = some ⟨.watched ⟨⟨2⟩, false⟩ ⟨⟨3⟩, false⟩ [⟨⟨1⟩, false⟩], 0.0, false, none⟩ ∧
    s.kernel.Watched ∧ (s.atStart 1 .never).propagate = .ok (none, s₂) ∧ s₂.kernel.Watched := by
  obtain ⟨s, hs, hopen, hk, hstored, hls, -⟩ := Reachable.exists_moved
  obtain ⟨hwatched, hsearch⟩ := Reachable.watches_in_order hs hopen
  have hprop : (s.atStart 1 .never).propagate = .ok (none, _) := bind_eq_ok_iff.2 ⟨_, hk, rfl⟩
  exact ⟨s, _, hs, hopen, hstored, hwatched, hprop,
    (hsearch _ _ ⟨none, none⟩ ⟨none, 0⟩ .never hls _ _ .start).2.1 _ hprop⟩

end Cdcl
