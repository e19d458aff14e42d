import Cdcl.Proofs.Assignment
import Cdcl.Proofs.Trail.Valid

/-!
# What a trail means for assignments

An assignment `Respects` a trail if it makes every literal true that is true on the trail, and
`RespectsRoot` if it does so at level 0. `Trail.assignment` is the assignment of a trail; on a full
trail it is the one that `Trail.model` lists.
-/

namespace Cdcl
set_option autoImplicit false

/-- Every literal that is true on the trail is true. -/
def Assignment.Respects (a : Assignment) (t : Trail) : Prop :=
  ∀ l, t.holds l = true → a.makes l = true

/-- Every literal that is true at level 0 is true. -/
def Assignment.RespectsRoot (a : Assignment) (t : Trail) : Prop :=
  ∀ l, t.holds l = true → t.levelOf l.var = 0 → a.makes l = true

namespace Trail

variable {t t' : Trail} {a : Assignment} {l : Literal}

/-- Without decisions, all literals are true at level 0. -/
theorem Valid.respects_of_root (h : t.Valid) (hlevel : t.level = 0) (ha : a.RespectsRoot t) :
    a.Respects t := by
  intro l hl
  have := h.levelOf_le l.var
  exact ha l hl (by omega)

/-! ## The assignment of a trail -/

/-- The variables that are true on a trail; unassigned ones are false. -/
def assignment (t : Trail) : Assignment := fun v => t.holds ⟨v, false⟩

theorem makes_assignment (ht : t.Valid) (h : t.holds l = true) :
    t.assignment.makes l = true := by
  obtain ⟨v, n⟩ := l
  cases n with
  | false => simp [Assignment.makes, assignment, h]
  | true =>
    have hneg : t.holds ⟨v, false⟩ = false := ht.consistent h
    simp [Assignment.makes, assignment, hneg]

end Trail

/-- The variables that a list of signed numbers makes true. -/
def Assignment.ofModel (m : List Int) : Assignment := fun v => m.contains (v.id : Int)

namespace Trail

variable {t : Trail} {l : Literal}

theorem length_model (t : Trail) : t.model.length = t.vars := by
  simp [model]

theorem getElem?_model {i : Nat} (h : i < t.vars) : t.model[i]? = some (t.signed (i + 1)) := by
  simp [model, h, Nat.add_comm]

theorem signed_cases (t : Trail) (id : Nat) : t.signed id = id ∨ t.signed id = -(id : Int) := by
  unfold signed
  split
  · exact Or.inl rfl
  · exact Or.inr rfl

/-- A model lists the literals of known variables that the assignment of the trail makes true. -/
theorem mem_model (hl : t.Names l) :
    l.toInt ∈ t.model ↔ t.assignment.makes l = true := by
  obtain ⟨⟨i⟩, n⟩ := l
  obtain ⟨h1, h2⟩ : 1 ≤ i ∧ i ≤ t.vars := hl
  simp only [model, List.mem_map, List.mem_range'_1, signed, Literal.toInt, Assignment.makes,
    assignment]
  constructor
  · rintro ⟨j, ⟨hj1, hj2⟩, hj⟩
    cases n with
    | false =>
      simp only [Bool.false_eq_true, if_false] at hj
      split at hj
      · next hpos =>
        obtain rfl : j = i := by omega
        simp [hpos]
      · omega
    | true =>
      simp only [if_true] at hj
      split at hj
      · omega
      · next hneg =>
        obtain rfl : j = i := by omega
        simp [hneg]
  · intro h
    refine ⟨i, ⟨h1, by omega⟩, ?_⟩
    cases n with
    | false =>
      have hpos : t.holds ⟨⟨i⟩, false⟩ = true := by simpa using h
      simp [hpos]
    | true =>
      have hneg : t.holds ⟨⟨i⟩, false⟩ = false := by simpa using h
      simp [hneg]

theorem makes_ofModel (hl : t.Names l) :
    (Assignment.ofModel t.model).makes l = t.assignment.makes l := by
  have hv : Assignment.ofModel t.model l.var = t.assignment l.var := by
    have hnames : t.Names ⟨l.var, false⟩ := hl
    rw [Bool.eq_iff_iff]
    have := mem_model hnames
    simpa [Assignment.ofModel, Literal.toInt, Assignment.makes] using this
  rw [Assignment.makes, Assignment.makes, hv]

end Trail
end Cdcl
