import Cdcl.Kernel
import Cdcl.Proofs.Constraint.Reason
import Cdcl.Proofs.Store
import Cdcl.Proofs.Trail.Changes
import Cdcl.Proofs.Watches

/-!
# What holds of a kernel

`Kernel.Sound` says that the trail, the store and the reasons fit together, `Kernel.Owing` that each
constraint is on the lists of the literals it watches, apart from entries that were taken off a list
and not yet put back, and `Kernel.Settled` that a watched literal which was propagated and is false
leaves no choice: the other watched literals hold. `Kernel.Ready` is the state between two
operations.
-/

namespace Cdcl
set_option autoImplicit false

/-- The literals that a stored constraint watches, none if there is no such constraint. -/
def Store.watching (s : Store) (ref : ClauseRef) : List Literal :=
  match s.get? ref with
  | some e => e.constraint.watching
  | none => []

namespace Store

variable {s s' : Store} {ref c : ClauseRef} {e : Stored}

theorem watching_eq (h : s.get? ref = some e) : s.watching ref = e.constraint.watching := by
  simp [watching, h]

theorem watching_of_none (h : s.get? ref = none) : s.watching ref = [] := by
  simp [watching, h]

theorem watching_insert : (s.insert e).2.watching c =
    if c = ⟨s.slots.size⟩ then e.constraint.watching else s.watching c := by
  unfold watching
  rw [get?_insert]
  by_cases hc : c = ⟨s.slots.size⟩
  · rw [if_pos hc, if_pos hc]
  · rw [if_neg hc, if_neg hc]

theorem watching_erase : (s.erase ref).watching c = if c = ref then [] else s.watching c := by
  unfold watching
  rw [get?_erase]
  by_cases hc : c = ref
  · rw [if_pos hc, if_pos hc]
  · rw [if_neg hc, if_neg hc]

theorem watching_same (h : s.Same s') : s'.watching ref = s.watching ref := by
  cases he : s.get? ref with
  | none =>
    have hnone := h ref
    rw [he, Option.map_none, Option.map_eq_none_iff] at hnone
    rw [watching_of_none he, watching_of_none hnone]
  | some e =>
    obtain ⟨e', he', hb⟩ := h.get? he
    rw [watching_eq he, watching_eq he']
    exact congrArg (fun b => b.1.watching) hb

end Store

namespace Kernel

/-- The trail, the store and the reasons fit together. -/
structure Sound (k : Kernel) : Prop where
  trail : k.trail.Valid
  caught : k.trail.Caught
  shape : ∀ {ref : ClauseRef} {e : Stored}, k.store.get? ref = some e → e.constraint.Valid
  named : ∀ {ref : ClauseRef} {e : Stored}, k.store.get? ref = some e →
    ∀ l ∈ e.constraint.literals, k.trail.Names l
  reasons : ∀ {v : Var} {m : Mark} {ref : ClauseRef}, k.trail.mark? v = some m →
    m.reason = some ref →
    ∃ e, k.store.get? ref = some e ∧ e.constraint.Forces k.trail ⟨v, m.negative⟩

/-- Each constraint is on the lists of the literals it watches, if the owed entries are counted for
the list of `fals`. -/
def Owing (k : Kernel) (fals : Literal) (owed : List ClauseRef) : Prop :=
  ∀ ref l, k.watches.tally l ref + (if l = fals then owed.count ref else 0) =
    (k.store.watching ref).count l

/-- Each constraint is on the lists of the literals it watches. -/
def Indexed (k : Kernel) : Prop := ∀ ref l, k.watches.tally l ref = (k.store.watching ref).count l

/-- The literal was propagated at a level below `n`. -/
def Passed (t : Trail) (n : Nat) (m : Mark) : Prop := m.position < t.head ∧ m.level < n

/-- If a watched literal was propagated at a level below `n` and is false, then the other watched
literals have held since that level. Owed entries of the list of `fals` are excepted. -/
def Settled (k : Kernel) (n : Nat) (fals : Literal) (owed : List ClauseRef) : Prop :=
  ∀ ref e, k.store.get? ref = some e → ∀ w ∈ e.constraint.watching, ∀ m,
    k.trail.mark? w.var = some m → m.negative ≠ w.negative → Passed k.trail n m →
    ¬ (w = fals ∧ ref ∈ owed) →
    ∀ u ∈ e.constraint.watching, u ≠ w → k.trail.holds u = true ∧ k.trail.levelOf u.var ≤ m.level

/-- If a watched literal was propagated at a level below `n` and is false, then the other watched
literals have held since that level. -/
def Stable (k : Kernel) (n : Nat) : Prop :=
  ∀ ref e, k.store.get? ref = some e → ∀ w ∈ e.constraint.watching, ∀ m,
    k.trail.mark? w.var = some m → m.negative ≠ w.negative → Passed k.trail n m →
    ∀ u ∈ e.constraint.watching, u ≠ w → k.trail.holds u = true ∧ k.trail.levelOf u.var ≤ m.level

/-- All parts fit together, and propagation is complete for the levels below `n`. -/
structure Firm (k : Kernel) (n : Nat) : Prop where
  sound : k.Sound
  indexed : k.Indexed
  stable : k.Stable n

/-- What holds between two operations on a kernel. -/
abbrev Ready (k : Kernel) : Prop := k.Firm (k.trail.level + 1)

/-- A stored constraint is violated, and it has a false literal of the current level. -/
structure Clash (k : Kernel) (ref : ClauseRef) : Prop extends k.Firm k.trail.level where
  caught_up : k.trail.head = k.trail.literals.size
  violated : ∃ e, k.store.get? ref = some e ∧ e.constraint.Violated k.trail ∧
    ∃ l ∈ e.constraint.literals, k.trail.holds (-l) = true ∧
      k.trail.levelOf l.var = k.trail.level

variable {k : Kernel} {fals : Literal} {ref : ClauseRef} {e : Stored}

theorem owing_nil : k.Owing fals [] ↔ k.Indexed := by
  simp [Owing, Indexed]

theorem settled_nil {n : Nat} : k.Settled n fals [] ↔ k.Stable n := by
  simp [Settled, Stable]

theorem Stable.mono {n n' : Nat} (h : k.Stable n) (hle : n' ≤ n) : k.Stable n' :=
  fun ref e he w hw m hm hneg hpassed =>
    h ref e he w hw m hm hneg ⟨hpassed.1, Nat.lt_of_lt_of_le hpassed.2 hle⟩

/-- An owed entry is one of a constraint that watches the literal. -/
theorem Owing.mem_watching {owed : List ClauseRef} (h : k.Owing fals owed) (href : ref ∈ owed)
    (he : k.store.get? ref = some e) : fals ∈ e.constraint.watching := by
  have hcount := h ref fals
  rw [if_pos rfl, Store.watching_eq he] at hcount
  have hpos : 0 < owed.count ref := List.count_pos_iff.2 href
  exact List.count_pos_iff.1 (by omega)

/-- A literal of a trail whose earlier levels were all propagated belongs to the current level if it
waits. -/
theorem Sound.level_eq (h : k.Sound) {v : Var} {m : Mark} (hm : k.trail.mark? v = some m)
    (hpos : k.trail.head ≤ m.position) : m.level = k.trail.level :=
  h.trail.level_eq_of_limits_le hm fun n hn => Nat.le_trans (h.caught n hn) hpos

/-- The place of the queue on the trail and the watch lists do not matter. -/
theorem Sound.withHead (h : k.Sound) {n p : Nat} {w : Watches} (hn : n ≤ k.trail.literals.size)
    (hlimits : ∀ i ∈ k.trail.limits.toList, i ≤ n) :
    Sound { k with trail.head := n, watches := w, propagations := p } where
  trail := h.trail.withHead hn
  caught := hlimits
  shape := h.shape
  named := h.named
  reasons := by
    intro v m r hm hr
    obtain ⟨e, he, hforces⟩ := h.reasons hm hr
    exact ⟨e, he, hforces.of_marks h.trail (h.trail.withHead hn) (l := ⟨v, m.negative⟩) hm hm rfl
      fun _ n hn _ => ⟨n, hn, rfl, rfl⟩⟩

end Kernel
end Cdcl
