import Mathlib.Algebra.Ring.Nat
import Mathlib.Data.List.Nodup
import Cdcl.Proofs.Solver.Searching

/-!
# Assignments as vectors

An assignment of `vars` variables is written as a vector: entry `i` is `i + 1` if the variable of this
number is true, and `-(i + 1)` otherwise. `vectors` lists them all, `modelsOf` those that meet a
formula, and `Demand.excluding` is the clause that all vectors but one satisfy.
-/

namespace Cdcl
set_option autoImplicit false

/-- One signed number for each variable, in order. -/
structure IsVector (vars : Nat) (m : List Int) : Prop where
  length : m.length = vars
  signed : ∀ i < vars, m[i]? = some ((i : Int) + 1) ∨ m[i]? = some (-((i : Int) + 1))

/-- All vectors over so many variables. -/
def vectors : Nat → List (List Int)
  | 0 => [[]]
  | n + 1 => (vectors n).map (· ++ [(n : Int) + 1]) ++ (vectors n).map (· ++ [-((n : Int) + 1)])

variable {vars i n : Nat} {m m' : List Int} {x : Int} {F : Formula}

/-! ## All vectors -/

theorem isVector_concat :
    IsVector (n + 1) (m ++ [x]) ↔ IsVector n m ∧ (x = (n : Int) + 1 ∨ x = -((n : Int) + 1)) := by
  constructor
  · intro h
    have hlen : m.length = n := by simpa using h.length
    refine ⟨⟨hlen, fun i hi => ?_⟩, ?_⟩
    · have := h.signed i (Nat.lt_succ_of_lt hi)
      rwa [List.getElem?_append_left (hlen.symm ▸ hi)] at this
    · simpa [← hlen] using h.signed n (Nat.lt_succ_self n)
  · rintro ⟨h, hx⟩
    refine ⟨by simp [h.length], fun i hi => ?_⟩
    rcases Nat.lt_succ_iff_lt_or_eq.1 hi with hlt | rfl
    · rw [List.getElem?_append_left (h.length.symm ▸ hlt)]
      exact h.signed i hlt
    · simpa [← h.length] using hx

theorem mem_vectors : m ∈ vectors n ↔ IsVector n m := by
  induction n generalizing m with
  | zero =>
    refine ⟨fun h => ?_, fun h => ?_⟩
    · obtain rfl := List.mem_singleton.1 h
      exact ⟨rfl, fun i hi => absurd hi (Nat.not_lt_zero i)⟩
    · exact List.mem_singleton.2 (List.length_eq_zero_iff.1 h.length)
  | succ n ih =>
    rcases List.eq_nil_or_concat m with rfl | ⟨m, x, rfl⟩
    · refine ⟨fun h => ?_, fun h => absurd h.length (by simp)⟩
      simp [vectors] at h
    · rw [List.concat_eq_append, isVector_concat, ← ih]
      simp [vectors, and_or_left, eq_comm]

theorem nodup_vectors (n : Nat) : (vectors n).Nodup := by
  induction n with
  | zero => simp [vectors]
  | succ n ih =>
    refine List.Nodup.append (ih.map (List.append_left_injective _))
      (ih.map (List.append_left_injective _)) fun m hm hm' => ?_
    obtain ⟨k, -, rfl⟩ := List.mem_map.1 hm
    obtain ⟨k', -, heq⟩ := List.mem_map.1 hm'
    have := (List.append_inj' heq rfl).2
    simp at this
    omega

theorem length_vectors (n : Nat) : (vectors n).length = 2 ^ n := by
  induction n with
  | zero => rfl
  | succ n ih =>
    rw [vectors, List.length_append, List.length_map, List.length_map, ih, Nat.pow_succ]
    omega

/-! ## What a vector makes true -/

theorem IsVector.ofModel_apply (h : IsVector vars m) (hi : i < vars) :
    Assignment.ofModel m ⟨i + 1⟩ = decide (m[i]? = some ((i : Int) + 1)) := by
  unfold Assignment.ofModel
  rw [Bool.eq_iff_iff, List.contains_iff_mem, decide_eq_true_iff]
  refine ⟨fun hmem => ?_, fun hget => List.mem_of_getElem? (by simpa using hget)⟩
  -- the number stands nowhere else
  obtain ⟨j, hj⟩ := List.mem_iff_getElem?.1 hmem
  have hlt : j < vars := h.length ▸ (List.getElem?_eq_some_iff.1 hj).1
  rcases h.signed j hlt with hs | hs
  · obtain rfl : j = i := by
      have := Option.some.inj (hs.symm.trans hj)
      push_cast at this
      omega
    exact hs
  · have := Option.some.inj (hs.symm.trans hj)
    push_cast at this
    omega

/-- A vector makes an entry of another one true where the two agree. -/
theorem IsVector.makes_entry (h : IsVector vars m) (h' : IsVector vars m') (hi : i < vars)
    (hx : m[i]? = some x) :
    (Assignment.ofModel m').makes (Literal.ofSigned x) = decide (m'[i]? = some x) := by
  have happly := h'.ofModel_apply hi
  unfold Assignment.makes Literal.ofSigned
  rcases h.signed i hi with hs | hs
  · obtain rfl := Option.some.inj (hs.symm.trans hx)
    have hvar : ((i : Int) + 1).natAbs = i + 1 := by omega
    have hpos : ¬ (i : Int) + 1 < 0 := by omega
    simp [hvar, happly, hpos]
  · obtain rfl := Option.some.inj (hs.symm.trans hx)
    have hvar : (-((i : Int) + 1)).natAbs = i + 1 := by omega
    have hneg : -((i : Int) + 1) < 0 := by omega
    have hsides : (i : Int) + 1 ≠ -((i : Int) + 1) := by omega
    rw [hvar, happly, decide_eq_true hneg]
    rcases h'.signed i hi with hs' | hs' <;> rw [hs']
    · rw [decide_eq_true rfl, decide_eq_false fun heq => hsides (Option.some.inj heq)]
      rfl
    · rw [decide_eq_true rfl, decide_eq_false fun heq => hsides (Option.some.inj heq).symm]
      rfl

theorem IsVector.entry_ne_zero (h : IsVector vars m) (hx : x ∈ m) : x ≠ 0 ∧ x.natAbs ≤ vars := by
  obtain ⟨i, hi⟩ := List.mem_iff_getElem?.1 hx
  have hlt : i < vars := h.length ▸ (List.getElem?_eq_some_iff.1 hi).1
  rcases h.signed i hlt with hs | hs
  all_goals
    obtain rfl := Option.some.inj (hs.symm.trans hi)
    omega

/-- The clause that excludes a vector. -/
def Demand.excluding (m : List Int) : Demand := Demand.clause ((m.map (- ·)).map Literal.ofSigned)

theorem IsVector.holds_excluding (h : IsVector vars m) (h' : IsVector vars m') :
    (Demand.excluding m).Holds (Assignment.ofModel m') ↔ m' ≠ m := by
  unfold Demand.excluding
  rw [Demand.holds_clause]
  constructor
  · rintro ⟨l, hl, hmakes⟩ rfl
    simp only [List.map_map, List.mem_map, Function.comp] at hl
    obtain ⟨x, hx, rfl⟩ := hl
    obtain ⟨i, hi⟩ := List.mem_iff_getElem?.1 hx
    have hlt : i < vars := h.length ▸ (List.getElem?_eq_some_iff.1 hi).1
    rw [Literal.ofSigned_neg (h.entry_ne_zero hx).1, Assignment.makes_neg, h.makes_entry h' hlt hi]
      at hmakes
    simp [hi] at hmakes
  · intro hne
    obtain ⟨i, hi⟩ : ∃ i, m'[i]? ≠ m[i]? :=
      not_forall.1 fun hall => hne (List.ext_getElem? hall)
    have hlt : i < vars := by
      by_contra hge
      rw [List.getElem?_eq_none (by rw [h'.length]; omega),
        List.getElem?_eq_none (by rw [h.length]; omega)] at hi
      exact hi rfl
    obtain ⟨x, hx⟩ : ∃ x, m[i]? = some x := ⟨_, List.getElem?_eq_getElem (h.length.symm ▸ hlt)⟩
    refine ⟨Literal.ofSigned (-x), ?_, ?_⟩
    · simp only [List.map_map, List.mem_map, Function.comp]
      exact ⟨x, List.mem_of_getElem? hx, rfl⟩
    · rw [Literal.ofSigned_neg (h.entry_ne_zero (List.mem_of_getElem? hx)).1,
        Assignment.makes_neg, h.makes_entry h' hlt hx]
      simpa using hx ▸ hi

/-! ## Models of a formula -/

instance (F : Formula) (a : Assignment) : Decidable (F.Holds a) :=
  inferInstanceAs (Decidable (∀ d ∈ F, d.degree ≤ a.count d.literals))

/-- The vectors that meet a formula. -/
def modelsOf (vars : Nat) (F : Formula) : List (List Int) :=
  (vectors vars).filter fun m => F.Holds (Assignment.ofModel m)

theorem mem_modelsOf :
    m ∈ modelsOf vars F ↔ IsVector vars m ∧ F.Holds (Assignment.ofModel m) := by
  rw [modelsOf, List.mem_filter, mem_vectors, decide_eq_true_iff]

theorem nodup_modelsOf : (modelsOf vars F).Nodup := (nodup_vectors vars).filter _

theorem length_modelsOf_le : (modelsOf vars F).length ≤ 2 ^ vars :=
  length_vectors vars ▸ List.length_filter_le _ _

/-- The models of a formula that holds for the same assignments. -/
theorem modelsOf_congr {G : Formula} (h : ∀ a : Assignment, F.Holds a ↔ G.Holds a) :
    modelsOf vars F = modelsOf vars G := by
  unfold modelsOf
  simp only [h]

end Cdcl
