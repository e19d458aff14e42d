import Mathlib.Data.List.Nodup
import Mathlib.Data.List.Perm.Subperm
import Cdcl.Proofs.Table
import Cdcl.Trail

/-!
# Valid trails

`Trail.Valid` says that the tables of a trail tell the same story: the literals that hold are those
on the trail, each is where the table of places says, the levels follow from the limits, and nothing
is left behind for a variable that is unassigned. `Trail.Extends` relates a trail to a later one of
the same levels on which only forced literals are new.
-/

namespace Cdcl.Trail
set_option autoImplicit false

/-- How many levels begin at or before a place. -/
def levelAt (t : Trail) (i : Nat) : Nat := t.limits.toList.countP (· ≤ i)

/-- The place of a variable on the trail. -/
def place (t : Trail) (v : Var) : Nat :=
  match t.mark? v with
  | some m => m.position
  | none => 0

/-- The literal is one of the variables of the trail. -/
def Names (t : Trail) (l : Literal) : Prop := 1 ≤ l.var.id ∧ l.var.id ≤ t.vars

/-- How many cells the tables have. -/
def sizes (t : Trail) : Nat × Nat × Nat × Nat :=
  (t.truth.cells.size, t.levels.cells.size, t.reasons.cells.size, t.positions.cells.size)

/-- Every table has the cells of so many variables. -/
def Sized (t : Trail) (n : Nat) : Prop := t.sizes = (2 * n, n, n, n)

/-- Every table has the cells of a variable. -/
structure Covers (t : Trail) (v : Var) : Prop where
  truth : ∀ negative, Literal.code ⟨v, negative⟩ < t.truth.cells.size
  levels : v.id < t.levels.cells.size
  reasons : v.id < t.reasons.cells.size
  positions : v.id < t.positions.cells.size

/-- The tables of a trail agree. -/
structure Valid (t : Trail) : Prop where
  room : t.Sized (t.vars + 1) ∨ (t.vars = 0 ∧ t.Sized 0)
  consistent : ∀ {l : Literal}, t.holds l = true → t.holds (-l) = false
  marked : ∀ {i : Nat} {l : Literal}, t.literals[i]? = some l →
    ∃ m, t.mark? l.var = some m ∧ m.negative = l.negative ∧ m.position = i
  placed : ∀ {v : Var} {m : Mark}, t.mark? v = some m →
    t.literals[m.position]? = some ⟨v, m.negative⟩
  levels : ∀ {v : Var} {m : Mark}, t.mark? v = some m → m.level = t.levelAt m.position
  named : ∀ {v : Var} {m : Mark}, t.mark? v = some m → t.Names ⟨v, m.negative⟩
  cleared : ∀ {v : Var}, t.mark? v = none → t.levelOf v = 0 ∧ t.reasonOf v = none
  sorted : t.limits.toList.Pairwise (· ≤ ·)
  limited : ∀ n ∈ t.limits.toList, n ≤ t.literals.size
  head_le : t.head ≤ t.literals.size

/-- Every variable is assigned. -/
def Full (t : Trail) : Prop := ∀ v : Var, 1 ≤ v.id ∧ v.id ≤ t.vars → t.mark? v ≠ none

/-- Everything below the current level was taken for propagation. -/
def Caught (t : Trail) : Prop := ∀ n ∈ t.limits.toList, n ≤ t.head

/-- The trail with these literals, limits and place in the queue, whose tables hold the given marks.
The first mark is that of the number 0. -/
def ofMarks (marks : List (Option Mark)) (literals : List Literal) (limits : List Nat)
    (head : Nat) : Trail where
  vars := marks.length - 1
  truth := ⟨⟨marks.flatMap fun m => [m.any (!·.negative), m.any (·.negative)]⟩⟩
  levels := ⟨⟨marks.map fun m => m.elim 0 Mark.level⟩⟩
  reasons := ⟨⟨marks.map fun m => m.bind Mark.reason⟩⟩
  positions := ⟨⟨marks.map fun m => m.elim 0 Mark.position⟩⟩
  literals := ⟨literals⟩
  limits := ⟨limits⟩
  head := head

variable {t t' : Trail} {l k : Literal} {v : Var} {m : Mark}

/-! ## Marks

A mark collects what the tables say of an assigned variable. On a valid trail the literal that holds
can be read off it (`Valid.holds_iff`); in general the tables might hold a literal and its negation.
-/

theorem mark?_eq_some (h : t.mark? v = some m) :
    t.holds ⟨v, m.negative⟩ = true ∧ m = t.markOf v m.negative := by
  unfold mark? at h
  split at h
  · next hpos =>
    obtain rfl := Option.some.inj h
    exact ⟨hpos, rfl⟩
  · split at h
    · next hneg =>
      obtain rfl := Option.some.inj h
      exact ⟨hneg, rfl⟩
    · exact absurd h (by simp)

theorem mark?_eq_none_iff :
    t.mark? v = none ↔ t.holds ⟨v, false⟩ = false ∧ t.holds ⟨v, true⟩ = false := by
  unfold mark?
  cases t.holds ⟨v, false⟩ <;> cases t.holds ⟨v, true⟩ <;> simp

theorem mark?_empty : mark? {} v = none := by
  simp [mark?_eq_none_iff, holds, LiteralMap.getD, LiteralMap.empty]

/-- The mark of a variable follows from the tables. -/
theorem mark?_congr {w : Var} (hholds : ∀ negative, t'.holds ⟨v, negative⟩ = t.holds ⟨w, negative⟩)
    (hmark : ∀ negative, t'.markOf v negative = t.markOf w negative) : t'.mark? v = t.mark? w := by
  unfold mark?
  simp only [hholds, hmark]

theorem holds_mk (h : t.mark? v = some m) : t.holds ⟨v, m.negative⟩ = true := (mark?_eq_some h).1

theorem holds_of_mark (h : t.mark? l.var = some m) (hneg : m.negative = l.negative) :
    t.holds l = true := by
  have := holds_mk h
  rwa [hneg] at this

theorem holds_neg_of_mark (h : t.mark? l.var = some m) (hneg : m.negative ≠ l.negative) :
    t.holds (-l) = true :=
  holds_of_mark (l := -l) h (Bool.eq_not.2 hneg)

theorem unassigned_iff : t.mark? l.var = none ↔ t.holds l = false ∧ t.holds (-l) = false := by
  rw [mark?_eq_none_iff]
  obtain ⟨v, n⟩ := l
  cases n with
  | false => exact Iff.rfl
  | true => exact and_comm

theorem mark?_of_holds (h : t.holds l = true) (hn : t.holds (-l) = false) :
    t.mark? l.var = some (t.markOf l.var l.negative) := by
  obtain ⟨v, n⟩ := l
  cases n with
  | false => simp [mark?, h]
  | true =>
    have hpos : t.holds ⟨v, false⟩ = false := hn
    simp [mark?, h, hpos]

theorem exists_mark (h : t.holds l = true) : ∃ m, t.mark? l.var = some m := by
  refine Option.ne_none_iff_exists'.1 fun hnone => ?_
  rw [(unassigned_iff.1 hnone).1] at h
  exact absurd h (by simp)

theorem exists_mark_neg (h : t.holds (-l) = true) : ∃ m, t.mark? l.var = some m :=
  exists_mark (l := -l) h

theorem levelOf_eq (h : t.mark? v = some m) : t.levelOf v = m.level :=
  (congrArg Mark.level (mark?_eq_some h).2).symm

theorem place_eq (h : t.mark? v = some m) : t.place v = m.position := by
  simp [place, h]

theorem reasonOf_eq (h : t.mark? v = some m) : t.reasonOf v = m.reason :=
  (congrArg Mark.reason (mark?_eq_some h).2).symm

theorem root_of_level_zero (h : t.level = 0) : t.root = t.literals := by
  unfold root
  rw [Array.getElem?_eq_none (Nat.le_of_eq h)]

/-! ## Checked reads -/

theorem requireVar_eq_ok (h : t.requireVar v = .ok ()) :
    v.id < t.levels.cells.size ∧ v.id < t.reasons.cells.size ∧ v.id < t.positions.cells.size := by
  have := require_eq_ok_iff.1 h
  simpa [VarMap.covers, and_assoc] using this

theorem isSatisfied_eq_ok {b : Bool} (h : t.isSatisfied l = .ok b) :
    l.code < t.truth.cells.size ∧ b = t.holds l := by
  obtain ⟨hl, hb⟩ := LiteralMap.getD_of_get (d := false) h
  exact ⟨hl, hb.symm⟩

theorem isFalsified_eq_ok {b : Bool} (h : t.isFalsified l = .ok b) : b = t.holds (-l) :=
  (isSatisfied_eq_ok h).2

theorem isAssigned_eq_ok {b : Bool} (h : t.isAssigned l = .ok b) :
    l.code < t.truth.cells.size ∧ (b = false → (-l).code < t.truth.cells.size) ∧
      b = (t.mark? l.var).isSome := by
  obtain ⟨sat, hsat, h⟩ := bind_eq_ok_iff.1 h
  obtain ⟨hl, rfl⟩ := isSatisfied_eq_ok hsat
  split at h
  · next htrue =>
    obtain rfl := Except.ok.inj h
    obtain ⟨m, hm⟩ := exists_mark htrue
    exact ⟨hl, by simp, by simp [hm]⟩
  · next hfalse =>
    obtain ⟨hn, rfl⟩ := isSatisfied_eq_ok (l := -l) h
    refine ⟨hl, fun _ => hn, ?_⟩
    cases hneg : t.holds (-l) with
    | true =>
      obtain ⟨m, hm⟩ := exists_mark hneg
      rw [Literal.neg_var] at hm
      simp [hm]
    | false => simp [unassigned_iff.2 ⟨by simpa using hfalse, hneg⟩]

theorem positionOf_eq_ok {p : Nat} (h : t.positionOf v = .ok p) (hm : t.mark? v = some m) :
    m.position = p := by
  obtain ⟨_, -, h⟩ := bind_eq_ok_iff.1 h
  obtain ⟨_, -, h⟩ := bind_eq_ok_iff.1 h
  rw [(mark?_eq_some hm).2]
  exact VarMap.getD_of_get h

theorem covers_of_code_lt (hl : l.code < t.truth.cells.size)
    (hn : (-l).code < t.truth.cells.size) (hreq : t.requireVar l.var = .ok ()) :
    t.Covers l.var := by
  obtain ⟨hlevels, hreasons, hpositions⟩ := requireVar_eq_ok hreq
  refine ⟨fun negative => ?_, hlevels, hreasons, hpositions⟩
  rcases Literal.eq_or_eq_neg (l := ⟨l.var, negative⟩) (m := l) rfl with heq | heq
  · rwa [heq]
  · rwa [heq]

/-- Assigning changes nothing if the literal is true, puts it on the trail if it is unassigned, and
has no result if it is false. -/
theorem assign_eq_ok {r : Option ClauseRef} {o : Option Trail} (h : t.assign l r = .ok o) :
    (o = none ∧ t.holds (-l) = true) ∨ (o = some t ∧ t.holds l = true) ∨
      (o = some (t.push l r) ∧ t.mark? l.var = none ∧ t.Covers l.var) := by
  obtain ⟨fals, hfals, h⟩ := bind_eq_ok_iff.1 h
  obtain ⟨hn, rfl⟩ := isSatisfied_eq_ok (l := -l) hfals
  split at h
  · next hneg => exact Or.inl ⟨(Except.ok.inj h).symm, hneg⟩
  · next hneg =>
    obtain ⟨sat, hsat, h⟩ := bind_eq_ok_iff.1 h
    obtain ⟨hl, rfl⟩ := isSatisfied_eq_ok hsat
    split at h
    · next htrue => exact Or.inr (Or.inl ⟨(Except.ok.inj h).symm, htrue⟩)
    · next hfalse =>
      obtain ⟨_, hreq, h⟩ := bind_eq_ok_iff.1 h
      exact Or.inr (Or.inr ⟨(Except.ok.inj h).symm,
        unassigned_iff.2 ⟨by simpa using hfalse, by simpa using hneg⟩,
        covers_of_code_lt hl hn hreq⟩)

theorem decide_eq_ok (h : t.decide l = .ok t') :
    t.mark? l.var = none ∧ t.Covers l.var ∧ t' = t.openLevel.push l none := by
  obtain ⟨b, hb, h⟩ := bind_eq_ok_iff.1 h
  obtain ⟨hl, hn, rfl⟩ := isAssigned_eq_ok hb
  obtain ⟨_, hreq, h⟩ := bind_eq_ok_iff.1 h
  obtain ⟨_, hvar, h⟩ := bind_eq_ok_iff.1 h
  have hnone : t.mark? l.var = none := by simpa using require_eq_ok_iff.1 hreq
  exact ⟨hnone, covers_of_code_lt hl (hn (by simp [hnone])) hvar, (Except.ok.inj h).symm⟩

/-! ## Consequences of validity -/

namespace Valid

theorem empty : Valid {} where
  room := Or.inr ⟨rfl, rfl⟩
  consistent := fun hl => absurd hl (by simp [holds, LiteralMap.getD, LiteralMap.empty])
  marked := fun hl => absurd hl (by simp)
  placed := fun hm => absurd hm (by simp [mark?_empty])
  levels := fun hm => absurd hm (by simp [mark?_empty])
  named := fun hm => absurd hm (by simp [mark?_empty])
  cleared := fun _ => ⟨by simp [levelOf, VarMap.getD, VarMap.empty],
    by simp [reasonOf, VarMap.getD, VarMap.empty]⟩
  sorted := List.Pairwise.nil
  limited := fun _ hn => absurd hn List.not_mem_nil
  head_le := Nat.le_refl 0

theorem holds_iff (h : t.Valid) :
    t.holds l = true ↔ ∃ m, t.mark? l.var = some m ∧ m.negative = l.negative := by
  constructor
  · intro hl
    exact ⟨_, mark?_of_holds hl (h.consistent hl), rfl⟩
  · rintro ⟨m, hm, hneg⟩
    exact holds_of_mark hm hneg

theorem holds_neg_iff (h : t.Valid) :
    t.holds (-l) = true ↔ ∃ m, t.mark? l.var = some m ∧ m.negative ≠ l.negative := by
  rw [h.holds_iff]
  simp only [Literal.neg_var, Literal.neg_negative, ne_eq, Bool.eq_not]

theorem eq_of_holds (h : t.Valid) (hl : t.holds l = true) (hk : t.holds k = true)
    (hv : l.var = k.var) : l = k := by
  rcases Literal.eq_or_eq_neg hv with heq | rfl
  · exact heq
  · rw [h.consistent hk] at hl
    exact absurd hl (by simp)

theorem reasonOf_eq_some (h : t.Valid) {c : ClauseRef} (hc : t.reasonOf v = some c) :
    ∃ m, t.mark? v = some m ∧ m.reason = some c := by
  cases hm : t.mark? v with
  | none =>
    rw [(h.cleared hm).2] at hc
    exact absurd hc (by simp)
  | some m => exact ⟨m, rfl, (reasonOf_eq hm).symm.trans hc⟩

/-- The tables have the cells of every variable. -/
theorem covers (h : t.Valid) (hl : t.Names l) : t.Covers l.var := by
  obtain ⟨h1, h2⟩ := hl
  have hsizes : t.Sized (t.vars + 1) := by
    rcases h.room with hr | ⟨hv, -⟩
    · exact hr
    · omega
  obtain ⟨htruth, hlevels, hreasons, hpositions⟩ : _ ∧ _ ∧ _ ∧ _ := by
    simpa [Sized, sizes] using hsizes
  refine ⟨fun negative => ?_, by omega, by omega, by omega⟩
  have hcode : Literal.code ⟨l.var, negative⟩ ≤ 2 * l.var.id + 1 :=
    Nat.add_le_add_left (Bool.toNat_le negative) _
  omega

theorem le_vars (h : t.Valid) (hv : t.Covers v) : v.id ≤ t.vars := by
  have hlt := hv.levels
  rcases h.room with hroom | ⟨-, hroom⟩
  · have : t.levels.cells.size = t.vars + 1 := congrArg (·.2.1) hroom
    omega
  · have : t.levels.cells.size = 0 := congrArg (·.2.1) hroom
    omega

theorem getElem?_of_mark (h : t.Valid) (hm : t.mark? l.var = some m)
    (hneg : m.negative = l.negative) : t.literals[m.position]? = some l := by
  rw [h.placed hm, hneg]

theorem names_of_holds (h : t.Valid) (hl : t.holds l = true) : t.Names l := by
  obtain ⟨m, hm⟩ := exists_mark hl
  exact h.named hm

theorem holds_iff_mem (h : t.Valid) : t.holds l = true ↔ l ∈ t.literals.toList := by
  rw [h.holds_iff]
  constructor
  · rintro ⟨m, hm, hneg⟩
    exact Array.mem_toList_iff.2 (Array.mem_of_getElem? (h.getElem?_of_mark hm hneg))
  · intro hmem
    obtain ⟨i, hi⟩ := Array.mem_iff_getElem?.1 (Array.mem_toList_iff.1 hmem)
    obtain ⟨m, hm, hneg, -⟩ := h.marked hi
    exact ⟨m, hm, hneg⟩

theorem position_lt (h : t.Valid) (hm : t.mark? v = some m) : m.position < t.literals.size :=
  (Array.getElem?_eq_some_iff.1 (h.placed hm)).1

theorem level_le (h : t.Valid) (hm : t.mark? v = some m) : m.level ≤ t.level := by
  rw [h.levels hm, level, ← Array.length_toList]
  exact List.countP_le_length

theorem levelOf_le (h : t.Valid) (v : Var) : t.levelOf v ≤ t.level := by
  cases hm : t.mark? v with
  | none => exact Nat.le_trans (Nat.le_of_eq (h.cleared hm).1) (Nat.zero_le _)
  | some m => exact Nat.le_trans (Nat.le_of_eq (levelOf_eq hm)) (h.level_le hm)

/-- Levels do not fall along the trail. -/
theorem level_mono (h : t.Valid) {w : Var} {n : Mark} (hm : t.mark? v = some m)
    (hn : t.mark? w = some n) (hle : m.position ≤ n.position) : m.level ≤ n.level := by
  rw [h.levels hm, h.levels hn]
  refine List.countP_mono_left fun i _ hi => ?_
  simp only [decide_eq_true_eq] at hi ⊢
  omega

/-- A literal at or after every limit belongs to the current level. -/
theorem level_eq_of_limits_le (h : t.Valid) (hm : t.mark? v = some m)
    (hle : ∀ n ∈ t.limits.toList, n ≤ m.position) : m.level = t.level := by
  rw [h.levels hm, levelAt, level, ← Array.length_toList]
  exact List.countP_eq_length.2 fun n hn => by simpa using hle n hn

theorem mark_ext (h : t.Valid) {w : Var} {n : Mark} (hm : t.mark? v = some m)
    (hn : t.mark? w = some n) (hp : m.position = n.position) : v = w := by
  have h1 := h.placed hm
  rw [hp, h.placed hn] at h1
  exact (congrArg Literal.var (Option.some.inj h1)).symm

theorem nodup_vars (h : t.Valid) : (t.literals.toList.map Literal.var).Nodup := by
  rw [List.nodup_iff_getElem?_ne_getElem?]
  intro i j hij hj heq
  rw [List.length_map, Array.length_toList] at hj
  have hi : i < t.literals.size := Nat.lt_trans hij hj
  simp only [List.getElem?_map, Array.getElem?_toList, Array.getElem?_eq_getElem hi,
    Array.getElem?_eq_getElem hj, Option.map_some, Option.some.injEq] at heq
  obtain ⟨m, hm, -, hpos⟩ := h.marked (Array.getElem?_eq_getElem hi)
  obtain ⟨m', hm', -, hpos'⟩ := h.marked (Array.getElem?_eq_getElem hj)
  rw [heq, hm'] at hm
  obtain rfl : m' = m := Option.some.inj hm
  omega

theorem nodup_ids (h : t.Valid) : (t.literals.toList.map fun l => l.var.id).Nodup := by
  have := h.nodup_vars.map (f := Var.id) fun v w hvw => by
    obtain ⟨i⟩ := v
    obtain ⟨j⟩ := w
    exact congrArg Var.mk hvw
  rwa [List.map_map] at this

theorem mem_ids_iff (h : t.Valid) :
    v.id ∈ t.literals.toList.map (fun l => l.var.id) ↔ t.mark? v ≠ none := by
  constructor
  · intro hv
    obtain ⟨l, hl, hid⟩ := List.mem_map.1 hv
    obtain ⟨m, hm⟩ := exists_mark (h.holds_iff_mem.2 hl)
    rw [show v = l.var from congrArg Var.mk hid.symm, hm]
    simp
  · intro hv
    obtain ⟨m, hm⟩ := Option.ne_none_iff_exists'.1 hv
    exact List.mem_map.2 ⟨⟨v, m.negative⟩, h.holds_iff_mem.1 (holds_mk hm), rfl⟩

theorem ids_subset (h : t.Valid) :
    (t.literals.toList.map fun l => l.var.id) ⊆ List.range' 1 t.vars := by
  intro i hi
  obtain ⟨m, hm⟩ := Option.ne_none_iff_exists'.1 ((h.mem_ids_iff (v := ⟨i⟩)).1 hi)
  obtain ⟨h1, h2⟩ : 1 ≤ i ∧ i ≤ t.vars := h.named hm
  rw [List.mem_range'_1]
  omega

/-- A trail has no more literals than there are variables. -/
theorem size_le_vars (h : t.Valid) : t.literals.size ≤ t.vars := by
  have hle := (List.subperm_of_subset h.nodup_ids h.ids_subset).length_le
  rwa [List.length_map, Array.length_toList, List.length_range'] at hle

/-- A trail is full once it has as many literals as there are variables. -/
theorem full_iff (h : t.Valid) : t.Full ↔ t.literals.size = t.vars := by
  have hlength : (t.literals.toList.map fun l => l.var.id).length = t.literals.size := by
    rw [List.length_map, Array.length_toList]
  have hmem : ∀ v : Var, 1 ≤ v.id ∧ v.id ≤ t.vars ↔ v.id ∈ List.range' 1 t.vars := by
    intro v
    rw [List.mem_range'_1]
    omega
  constructor
  · intro hfull
    have hsub : List.range' 1 t.vars ⊆ t.literals.toList.map fun l => l.var.id :=
      fun i hi => (h.mem_ids_iff (v := ⟨i⟩)).2 (hfull ⟨i⟩ ((hmem ⟨i⟩).2 hi))
    have hle := (List.subperm_of_subset List.nodup_range' hsub).length_le
    rw [List.length_range', hlength] at hle
    exact Nat.le_antisymm h.size_le_vars hle
  · intro hsize v hv
    have hperm := (List.subperm_of_subset h.nodup_ids h.ids_subset).perm_of_length_le
      (Nat.le_of_eq (List.length_range'.trans (hsize.symm.trans hlength.symm)))
    exact h.mem_ids_iff.1 (hperm.symm.subset ((hmem v).1 hv))

theorem size_le_cells (h : t.Valid) : t.literals.size ≤ t.positions.cells.size := by
  have hle := h.size_le_vars
  rcases h.room with hr | ⟨hv, hr⟩
  · have : t.positions.cells.size = t.vars + 1 := congrArg (·.2.2.2) hr
    omega
  · omega

end Valid

/-! ## Later trails of the same levels -/

/-- A later trail of the same levels; the literals that it has in addition were forced. -/
structure Extends (t t' : Trail) : Prop where
  vars : t'.vars = t.vars
  limits : t'.limits = t.limits
  cells : t'.sizes = t.sizes
  size : t.literals.size ≤ t'.literals.size
  holds : ∀ {l : Literal}, t.holds l = true → t'.holds l = true
  marks : ∀ {v : Var} {m : Mark}, t.mark? v = some m → t'.mark? v = some m
  fresh : ∀ {v : Var} {m : Mark}, t.mark? v = none → t'.mark? v = some m →
    m.reason.isSome = true ∧ m.level = t.level ∧ t.literals.size ≤ m.position

namespace Extends

theorem refl (t : Trail) : t.Extends t :=
  ⟨rfl, rfl, rfl, Nat.le_refl _, fun h => h, fun h => h, fun h h' => by simp [h] at h'⟩

theorem level (h : t.Extends t') : t'.level = t.level := congrArg Array.size h.limits

theorem trans {t'' : Trail} (h : t.Extends t') (h' : t'.Extends t'') : t.Extends t'' where
  vars := h'.vars.trans h.vars
  limits := h'.limits.trans h.limits
  cells := h'.cells.trans h.cells
  size := Nat.le_trans h.size h'.size
  holds := fun hl => h'.holds (h.holds hl)
  marks := fun hm => h'.marks (h.marks hm)
  fresh := by
    intro v m hnone hm
    cases hmid : t'.mark? v with
    | none =>
      obtain ⟨hr, hlev, hpos⟩ := h'.fresh hmid hm
      exact ⟨hr, hlev.trans h.level, Nat.le_trans h.size hpos⟩
    | some n =>
      obtain rfl : n = m := Option.some.inj ((h'.marks hmid).symm.trans hm)
      exact h.fresh hnone hmid

theorem levelOf (h : t.Extends t') (hl : t.holds l = true) :
    t'.levelOf l.var = t.levelOf l.var := by
  obtain ⟨m, hm⟩ := exists_mark hl
  rw [levelOf_eq hm, levelOf_eq (h.marks hm)]

theorem names (h : t.Extends t') : t'.Names l ↔ t.Names l := by
  unfold Names
  rw [h.vars]

/-- An assigned literal of a later trail is new or as it was. -/
theorem old_or_fresh (h : t.Extends t') (hm : t'.mark? v = some m) :
    t.mark? v = some m ∨ (t.mark? v = none ∧ m.reason.isSome = true ∧ m.level = t.level ∧
      t.literals.size ≤ m.position) := by
  cases hv : t.mark? v with
  | none => exact Or.inr ⟨rfl, h.fresh hv hm⟩
  | some n => exact Or.inl ((h.marks hv).symm.trans hm ▸ rfl)

end Extends
end Cdcl.Trail
