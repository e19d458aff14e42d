import Cdcl.Constraint

/-!
# The constraint store

`Store` keeps every stored constraint in a slot of its own. Slots are never used again, so a
reference to a removed constraint stays dangling.
-/

namespace Cdcl
set_option autoImplicit false

/-- A stored constraint. -/
structure Stored where
  constraint : Constraint
  /-- How useful a learnt clause has been lately. -/
  activity : Float := 0.0
  learnt : Bool
  /-- The number of the clause in the certificate, if one is kept. -/
  clauseId : Option ClauseId

/-- The stored constraints by their slots. -/
structure Store where
  slots : Array (Option Stored) := #[]
  /-- How many slots are filled; each operation keeps count. -/
  live : Nat := 0
  counted : live = slots.toList.countP Option.isSome := by rfl

namespace Store

/-- A stored constraint, none if it was removed or never stored. -/
def get? (s : Store) (c : ClauseRef) : Option Stored := s.slots.getD c.index none

/-- A stored constraint, which must not have been removed. -/
def get (s : Store) (c : ClauseRef) : Except Fault Stored :=
  match s.get? c with
  | some e => .ok e
  | none => .error (.danglingRef c)

def contains (s : Store) (c : ClauseRef) : Bool := (s.get? c).isSome

theorem getElem?_of_contains {s : Store} {c : ClauseRef} (h : s.contains c) :
    ∃ e, s.slots.toList[c.index]? = some (some e) := by
  unfold contains get? at h
  rw [Array.getD_eq_getD_getElem?] at h
  cases hslot : s.slots[c.index]? with
  | none => simp [hslot] at h
  | some slot =>
    obtain ⟨e, rfl⟩ := Option.isSome_iff_exists.1 (by simpa [hslot] using h)
    exact ⟨e, Array.getElem?_toList.trans hslot⟩

/-- Writing to a filled slot takes one constraint away and brings in another, if any. -/
theorem countP_write {s : Store} {c : ClauseRef} (h : s.contains c) (o : Option Stored) :
    (s.slots.setIfInBounds c.index o).toList.countP Option.isSome =
      s.live - 1 + if o.isSome then 1 else 0 := by
  obtain ⟨e, he⟩ := getElem?_of_contains h
  obtain ⟨hlt, hget⟩ := List.getElem?_eq_some_iff.1 he
  rw [Array.toList_setIfInBounds, List.countP_set hlt, hget, s.counted]
  rfl

theorem live_pos {s : Store} {c : ClauseRef} (h : s.contains c) : 0 < s.live := by
  obtain ⟨e, he⟩ := getElem?_of_contains h
  rw [s.counted]
  exact List.countP_pos_iff.2 ⟨some e, List.mem_of_getElem? he, rfl⟩

/-- Stores a constraint in a new slot. -/
def insert (s : Store) (e : Stored) : ClauseRef × Store :=
  (⟨s.slots.size⟩, {
    slots := s.slots.push (some e)
    live := s.live + 1
    counted := by simp [s.counted] })

/-- Replaces a stored constraint. -/
def put (s : Store) (c : ClauseRef) (e : Stored) : Store :=
  if h : s.contains c then
    { s with
      slots := s.slots.setIfInBounds c.index (some e)
      counted := ((countP_write h (some e)).trans (Nat.sub_add_cancel (live_pos h))).symm }
  else s

/-- Empties a slot. -/
def erase (s : Store) (c : ClauseRef) : Store :=
  if h : s.contains c then
    { slots := s.slots.setIfInBounds c.index none
      live := s.live - 1
      counted := (countP_write h none).symm }
  else s

/-- The stored constraints in the order of their slots. -/
def entries (s : Store) : List (ClauseRef × Stored) :=
  s.slots.toList.zipIdx.filterMap fun (slot, i) => slot.map fun e => (⟨i⟩, e)

def size (s : Store) : Nat := s.live

end Store
end Cdcl
