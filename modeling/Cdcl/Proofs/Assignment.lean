import Mathlib.Data.List.Perm.Subperm
import Cdcl.Constraint
import Cdcl.Literal.Lemmas

/-!
# Assignments and what they satisfy

An `Assignment` gives every variable a truth value. `count` is how many literals of a list it makes
true, a `Demand` asks for a number of them, and a `Formula` is a list of demands. A clause is a
demand of degree 1 (`holds_clause`), and a stored constraint demands what its key says: two
constraints with one key hold under the same assignments (`holds_of_key_eq`).
-/

namespace Cdcl
set_option autoImplicit false

/-- A truth value for every variable. -/
abbrev Assignment := Var → Bool

/-- At least `degree` of the literals hold. -/
structure Demand where
  degree : Nat
  literals : List Literal

/-- Demands that are to hold together. -/
abbrev Formula := List Demand

namespace Assignment

/-- Whether a literal is true. -/
def makes (a : Assignment) (l : Literal) : Bool := a l.var != l.negative

/-- How many literals of a list are true. -/
def count (a : Assignment) (ls : List Literal) : Nat := ls.countP a.makes

/-- Some literal of a clause is true. -/
def Satisfies (a : Assignment) (ls : List Literal) : Prop := ∃ l ∈ ls, a.makes l = true

@[simp] theorem makes_neg (a : Assignment) (l : Literal) : a.makes (-l) = !a.makes l := by
  unfold makes
  cases h : a l.var <;> cases hn : l.negative <;> simp [h, hn]

theorem count_pos_iff {a : Assignment} {ls : List Literal} : 1 ≤ a.count ls ↔ a.Satisfies ls :=
  List.countP_pos_iff

theorem count_perm {a : Assignment} {ls ms : List Literal} (h : ls.Perm ms) :
    a.count ls = a.count ms := h.countP_eq _

theorem Satisfies.mono {a : Assignment} {ls ms : List Literal} (h : a.Satisfies ls)
    (hsub : ∀ l ∈ ls, l ∈ ms) : a.Satisfies ms := by
  obtain ⟨l, hl, hal⟩ := h
  exact ⟨l, hsub l hl, hal⟩

theorem satisfies_congr {a : Assignment} {ls ms : List Literal} (h : ∀ l, l ∈ ls ↔ l ∈ ms) :
    a.Satisfies ls ↔ a.Satisfies ms :=
  ⟨fun hs => hs.mono fun l => (h l).1, fun hs => hs.mono fun l => (h l).2⟩

theorem satisfies_singleton {a : Assignment} {l : Literal} :
    a.Satisfies [l] ↔ a.makes l = true := by simp [Satisfies]

theorem not_satisfies_nil (a : Assignment) : ¬ a.Satisfies [] := by
  rintro ⟨l, hl, -⟩
  exact List.not_mem_nil hl

theorem nodup_canonical (ls : List Literal) : (Literal.canonical ls).Nodup :=
  (Literal.ascending_canonical ls).imp fun hlt he => by simp [he] at hlt

/-- Counting repeated literals once can only lower the count. -/
theorem count_canonical_le (a : Assignment) (ls : List Literal) :
    a.count (Literal.canonical ls) ≤ a.count ls :=
  List.Subperm.countP_le _
    (List.subperm_of_subset (nodup_canonical ls) fun _ => Literal.mem_canonical.1)

end Assignment

namespace Demand

/-- Some literal of a clause holds. -/
def clause (ls : List Literal) : Demand := ⟨1, ls⟩

/-- The demand is met. -/
def Holds (d : Demand) (a : Assignment) : Prop := d.degree ≤ a.count d.literals

theorem holds_clause {ls : List Literal} {a : Assignment} :
    (clause ls).Holds a ↔ a.Satisfies ls := Assignment.count_pos_iff

/-- It makes no difference whether repeated literals are counted once or as often as they occur. -/
def Regular (d : Demand) : Prop :=
  ∀ a : Assignment, d.degree ≤ a.count d.literals →
    d.degree ≤ a.count (Literal.canonical d.literals)

theorem regular_of_nodup {degree : Nat} {ls : List Literal} (h : ls.Nodup) :
    Regular ⟨degree, ls⟩ := by
  have hperm : (Literal.canonical ls).Perm ls :=
    (List.perm_ext_iff_of_nodup (Assignment.nodup_canonical ls) h).2 fun _ => Literal.mem_canonical
  exact fun a ha => (a.count_perm hperm).symm ▸ ha

theorem regular_clause (ls : List Literal) : (clause ls).Regular := by
  intro a ha
  exact Assignment.count_pos_iff.2
    ((Assignment.count_pos_iff.1 ha).mono fun _ => Literal.mem_canonical.2)

end Demand

namespace Formula

/-- All demands are met. -/
def Holds (F : Formula) (a : Assignment) : Prop := ∀ d ∈ F, d.Holds a

/-- Some assignment meets all demands. -/
def Satisfiable (F : Formula) : Prop := ∃ a, F.Holds a

theorem holds_concat {F : Formula} {d : Demand} {a : Assignment} :
    Holds (F ++ [d]) a ↔ F.Holds a ∧ d.Holds a := by
  simp only [Holds, List.forall_mem_append, List.forall_mem_singleton]

theorem holds_concat_unit {F : Formula} {l : Literal} {a : Assignment} :
    Holds (F ++ [Demand.clause [l]]) a ↔ F.Holds a ∧ a.makes l = true := by
  rw [holds_concat, Demand.holds_clause, Assignment.satisfies_singleton]

end Formula

/-! ## Constraints -/

/-- What a stored constraint demands. -/
def Constraint.demand (c : Constraint) : Demand := ⟨c.degree, c.literals⟩

theorem Constraint.perm_of_key_eq {c d : Constraint} (h : c.key = d.key) :
    c.literals.Perm d.literals := by
  have hs : Literal.sort c.literals = Literal.sort d.literals := congrArg ConstraintKey.literals h
  exact (Literal.sort_perm _).symm.trans (hs ▸ Literal.sort_perm _)

theorem Constraint.degree_of_key_eq {c d : Constraint} (h : c.key = d.key) :
    c.degree = d.degree := congrArg ConstraintKey.degree h

theorem Constraint.holds_of_key_eq {c d : Constraint} (h : c.key = d.key) (a : Assignment) :
    c.demand.Holds a ↔ d.demand.Holds a := by
  unfold Demand.Holds Constraint.demand
  rw [degree_of_key_eq h, Assignment.count_perm (perm_of_key_eq h)]

theorem Constraint.holds_iff_satisfies {c : Constraint} {a : Assignment} (h : c.degree = 1) :
    c.demand.Holds a ↔ a.Satisfies c.literals := by
  unfold Demand.Holds demand
  rw [h]
  exact Assignment.count_pos_iff

end Cdcl
