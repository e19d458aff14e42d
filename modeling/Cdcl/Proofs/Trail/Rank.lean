import Mathlib.Data.DFinsupp.WellFounded
import Mathlib.Data.Prod.Lex
import Mathlib.Order.Interval.Finset.Nat
import Cdcl.Proofs.Trail.Changes

/-!
# The rank of a trail

Learnt clauses may be forgotten again, so what a search has learnt does not tell how far it is. The
trail does: `Trail.rank` counts level by level the variables that the level lacks, level 0 first. A
trail has a smaller rank as soon as some level gains a variable and no level below it changes
(`Gains.rank_lt`), whatever happens to the levels above: this is how decisions, propagations and
returns to earlier levels all decrease it. A level that is opened for an assumption that holds already
gains nothing, so the rank counts the assumptions whose level is still to be opened as well.

There are no empty levels but those of assumptions (`Trail.Filled`), so only finitely many levels
count.
-/

namespace Cdcl.Trail
set_option autoImplicit false

def level? (t : Trail) (v : Var) : Option Nat := (t.mark? v).map Mark.level

/-- How many of so many variables are not at a level. -/
def lacking (t : Trail) (vars i : Nat) : Nat :=
  {v ∈ Finset.range (vars + 1) | t.level? ⟨v⟩ ≠ some i}.card

/-- How many variables each level lacks, the lower levels first, and then how many of so many
assumptions have no level yet. -/
def rank (vars assumed : Nat) (t : Trail) : Lex (Fin (assumed + vars + 1) → Nat) ×ₗ Nat :=
  toLex (toLex fun i => t.lacking vars i, assumed - t.level)

/-- Every level has a variable, apart from the first so many. -/
def Filled (t : Trail) (assumed : Nat) : Prop :=
  ∀ i, assumed < i → i ≤ t.level → ∃ v, t.level? v = some i

/-- The level gains a variable, and no level below it changes. -/
structure Gains (t t' : Trail) (j : Nat) : Prop where
  below : ∀ i < j, ∀ v, t'.level? v = some i ↔ t.level? v = some i
  kept : ∀ v, t.level? v = some j → t'.level? v = some j
  gained : ∃ v, v.id ≤ t.vars ∧ t'.level? v = some j ∧ t.level? v ≠ some j

variable {t t' : Trail} {l : Literal} {v : Var} {m : Mark} {r : Option ClauseRef}
  {vars assumed i j : Nat}

theorem level?_eq_some : t.level? v = some i ↔ ∃ m, t.mark? v = some m ∧ m.level = i :=
  Option.map_eq_some_iff

theorem level?_eq (h : t.mark? v = some m) : t.level? v = some m.level := by
  rw [level?, h]
  rfl

theorem level?_congr (h : t'.mark? v = t.mark? v) : t'.level? v = t.level? v := by
  rw [level?, h]
  rfl

/-! ## Counting -/

theorem lacking_le (h : ∀ v, t.level? v = some i → t'.level? v = some i) :
    t'.lacking vars i ≤ t.lacking vars i :=
  Finset.card_le_card (Finset.monotone_filter_right _ fun _ _ hnot hin => hnot (h _ hin))

theorem lacking_eq (h : ∀ v, t'.level? v = some i ↔ t.level? v = some i) :
    t'.lacking vars i = t.lacking vars i :=
  Nat.le_antisymm (lacking_le fun v => (h v).2) (lacking_le fun v => (h v).1)

theorem Gains.lacking_lt (h : t.Gains t' j) (hvars : t.vars = vars) :
    t'.lacking vars j < t.lacking vars j := by
  obtain ⟨⟨v⟩, hv, hin, hout⟩ := h.gained
  refine Finset.card_lt_card ((Finset.ssubset_iff_of_subset
    (Finset.monotone_filter_right _ fun _ _ hnot hold => hnot (h.kept _ hold))).2 ⟨v, ?_, ?_⟩)
  · exact Finset.mem_filter.2 ⟨Finset.mem_range.2 (Nat.lt_succ_of_le (hvars ▸ hv)), hout⟩
  · exact fun hmem => (Finset.mem_filter.1 hmem).2 hin

theorem Gains.rank_lt (h : t.Gains t' j) (hvars : t.vars = vars) (hj : j ≤ assumed + vars) :
    rank vars assumed t' < rank vars assumed t := by
  refine Prod.Lex.toLex_lt_toLex.2 (Or.inl ⟨⟨j, Nat.lt_succ_of_le hj⟩, fun i hi => ?_, ?_⟩)
  · exact lacking_eq (h.below i hi)
  · exact h.lacking_lt hvars

theorem rank_eq (h : ∀ v, t'.level? v = t.level? v) (hlevel : t'.level = t.level) :
    rank vars assumed t' = rank vars assumed t := by
  have hlacking : ∀ i, t'.lacking vars i = t.lacking vars i := fun i =>
    lacking_eq fun v => by rw [h v]
  unfold rank
  rw [hlevel]
  simp only [hlacking]

/-! ## Changes -/

/-- Propagation adds to the current level only. -/
theorem Extends.rank_le (h : t.Extends t') (ht' : t'.Valid) (hvars : t.vars = vars)
    (hlevel : t.level ≤ assumed + vars) : rank vars assumed t' ≤ rank vars assumed t := by
  have hkept : ∀ v i, t.level? v = some i → t'.level? v = some i := by
    intro v i hv
    obtain ⟨m, hm, rfl⟩ := level?_eq_some.1 hv
    exact level?_eq (h.marks hm)
  have hold : ∀ v i, t'.level? v = some i → i ≠ t.level → t.level? v = some i := by
    intro v i hv hi
    obtain ⟨m, hm, rfl⟩ := level?_eq_some.1 hv
    rcases h.old_or_fresh hm with hm | ⟨-, -, hlevel, -⟩
    · exact level?_eq hm
    · exact absurd hlevel hi
  -- Either the current level gains a variable, or the levels are as they were.
  by_cases hgain : ∃ v, t'.level? v = some t.level ∧ t.level? v ≠ some t.level
  · obtain ⟨v, hin, hout⟩ := hgain
    obtain ⟨m, hm, -⟩ := level?_eq_some.1 hin
    have hgains : t.Gains t' t.level :=
      ⟨fun i hi v => ⟨fun hv => hold v i hv (Nat.ne_of_lt hi), hkept v i⟩, fun v => hkept v _,
        v, h.vars ▸ (ht'.named hm).2, hin, hout⟩
    exact (hgains.rank_lt hvars hlevel).le
  · refine (rank_eq (fun v => ?_) h.level).le
    refine Option.ext fun i => ⟨fun hv => ?_, hkept v i⟩
    by_cases hi : i = t.level
    · subst hi
      by_contra hout
      exact hgain ⟨v, hv, hout⟩
    · exact hold v i hv hi

theorem Forgets.level?_eq (h : t.Forgets t') : t'.level? v = t.level? v := by
  rcases h.marks v with hv | ⟨m, hm, -, hv⟩
  · exact level?_congr hv
  · rw [level?, level?, hv, hm]
    rfl

theorem Forgets.rank_eq (h : t.Forgets t') : rank vars assumed t' = rank vars assumed t :=
  Trail.rank_eq (fun _ => h.level?_eq) h.level

theorem level?_push_of_some (hnone : t.mark? l.var = none) (h : t.level? v = some i) :
    (t.push l r).level? v = some i := by
  obtain ⟨m, hm, rfl⟩ := level?_eq_some.1 h
  exact level?_eq (mark?_push_of_some hnone hm)

theorem level?_push (hcell : t.Covers l.var) (hnone : t.mark? l.var = none) (hi : i ≠ t.level)
    (h : (t.push l r).level? v = some i) : t.level? v = some i := by
  obtain ⟨m, hm, rfl⟩ := level?_eq_some.1 h
  rcases mark?_push hcell hnone hm with ⟨-, rfl⟩ | ⟨-, hm⟩
  · exact absurd rfl hi
  · exact level?_eq hm

theorem Valid.level?_undoTo (h : t.Valid) (hi : i ≤ j) :
    (t.undoTo j).1.level? v = some i ↔ t.level? v = some i := by
  rw [level?_eq_some, level?_eq_some]
  constructor
  · rintro ⟨m, hm, rfl⟩
    exact ⟨m, (h.mark?_undoTo.1 hm).1, rfl⟩
  · rintro ⟨m, hm, rfl⟩
    exact ⟨m, h.mark?_undoTo_eq hm hi, rfl⟩

/-- A literal is pushed at level `j` of a trail that is the same up to this level. -/
theorem gains_of_push {t₀ : Trail} (hcell : t₀.Covers l.var)
    (hnone : t₀.mark? l.var = none) (hvars : l.var.id ≤ t.vars) (hlevel : t₀.level = j)
    (hsame : ∀ i ≤ j, ∀ v, t₀.level? v = some i ↔ t.level? v = some i) :
    t.Gains (t₀.push l r) j where
  below := fun i hi v =>
    ⟨fun hv => (hsame i hi.le v).1 (level?_push hcell hnone (hlevel ▸ Nat.ne_of_lt hi) hv),
      fun hv => level?_push_of_some hnone ((hsame i hi.le v).2 hv)⟩
  kept := fun v hv => level?_push_of_some hnone ((hsame j (Nat.le_refl j) v).2 hv)
  gained := by
    refine ⟨l.var, hvars, hlevel ▸ level?_eq (mark?_push_self hcell hnone), fun hin => ?_⟩
    obtain ⟨m, hm, -⟩ := level?_eq_some.1 ((hsame j (Nat.le_refl j) l.var).2 hin)
    exact absurd (hnone.symm.trans hm) (by simp)

/-- The level that is returned to gains the literal that is pushed there. -/
theorem Valid.gains_of_return (h : t.Valid) (hj : j ≤ t.level)
    (hcell : (t.undoTo j).1.Covers l.var)
    (hnone : (t.undoTo j).1.mark? l.var = none) : t.Gains ((t.undoTo j).1.push l r) j := by
  refine gains_of_push hcell hnone ?_ (level_undoTo.trans (Nat.min_eq_right hj))
    fun _ hi _ => h.level?_undoTo hi
  have hle := h.undoTo.le_vars hcell
  rwa [vars_undoTo] at hle

theorem Valid.gains_of_decide (h : t.Valid) (hname : t.Names l) (hnone : t.mark? l.var = none) :
    t.Gains (t.openLevel.push l none) (t.level + 1) :=
  gains_of_push (h.covers hname).openLevel hnone hname.2 level_openLevel fun _ _ _ => Iff.rfl

theorem rank_openLevel_lt (h : t.level < assumed) :
    rank vars assumed t.openLevel < rank vars assumed t := by
  refine Prod.Lex.toLex_lt_toLex.2 (Or.inr ⟨rfl, ?_⟩)
  change assumed - t.openLevel.level < assumed - t.level
  rw [level_openLevel]
  omega

/-! ## Empty levels -/

theorem filled_of_level_le (h : t.level ≤ assumed) : t.Filled assumed := fun _ hlt hle =>
  absurd (Nat.lt_of_lt_of_le hlt hle) (Nat.not_lt.2 h)

/-- No level is new, and those that stay keep their variables. -/
theorem Filled.mono (h : t.Filled assumed) (hlevel : t'.level ≤ t.level)
    (hkept : ∀ v i, i ≤ t'.level → t.level? v = some i → t'.level? v = some i) :
    t'.Filled assumed := by
  intro i hlt hle
  obtain ⟨v, hv⟩ := h i hlt (Nat.le_trans hle hlevel)
  exact ⟨v, hkept v i hle hv⟩

theorem Filled.of_extends (h : t.Filled assumed) (ht : t.Extends t') : t'.Filled assumed := by
  refine h.mono (Nat.le_of_eq ht.level) fun v i _ hv => ?_
  obtain ⟨m, hm, rfl⟩ := level?_eq_some.1 hv
  exact level?_eq (ht.marks hm)

theorem Filled.of_forgets (h : t.Filled assumed) (ht : t.Forgets t') : t'.Filled assumed :=
  h.mono (Nat.le_of_eq ht.level) fun _ _ _ hv => ht.level?_eq.trans hv

/-- Returning to an earlier level and asserting a literal there. -/
theorem Filled.of_return (h : t.Filled assumed) (ht : t.Valid)
    (hnone : (t.undoTo j).1.mark? l.var = none) : ((t.undoTo j).1.push l r).Filled assumed := by
  have hlevel : ((t.undoTo j).1.push l r).level = min t.level j := level_undoTo
  refine h.mono (Nat.le_trans (Nat.le_of_eq hlevel) (Nat.min_le_left _ _)) fun v i hi hv => ?_
  have hle : i ≤ j := Nat.le_trans (hlevel ▸ hi) (Nat.min_le_right _ _)
  exact level?_push_of_some hnone ((ht.level?_undoTo hle).2 hv)

theorem Filled.decide (h : t.Filled assumed) (ht : t.Valid) (hname : t.Names l)
    (hnone : t.mark? l.var = none) : (t.openLevel.push l none).Filled assumed := by
  intro i hlt hle
  have hgains := ht.gains_of_decide hname hnone
  have hlevel : (t.openLevel.push l none).level = t.level + 1 := level_openLevel
  rcases Nat.lt_or_eq_of_le (hlevel ▸ hle) with hold | rfl
  · obtain ⟨v, hv⟩ := h i hlt (Nat.le_of_lt_succ hold)
    exact ⟨v, (hgains.below i hold v).2 hv⟩
  · obtain ⟨v, -, hv, -⟩ := hgains.gained
    exact ⟨v, hv⟩

/-- There are no more levels than assumptions and variables. -/
theorem Filled.level_le (h : t.Filled assumed) (ht : t.Valid) : t.level ≤ assumed + t.vars := by
  -- Each of these levels is the level of a variable, so there are no more of them than variables.
  have hsurj : Set.SurjOn (fun v => t.levelOf ⟨v⟩) (Finset.Icc 1 t.vars)
      (Finset.Ioc assumed t.level) := by
    intro i hi
    obtain ⟨hlt, hle⟩ := Finset.mem_Ioc.1 (Finset.mem_coe.1 hi)
    obtain ⟨v, hv⟩ := h i hlt hle
    obtain ⟨m, hm, rfl⟩ := level?_eq_some.1 hv
    exact ⟨v.id, Finset.mem_coe.2 (Finset.mem_Icc.2 (ht.named hm)), levelOf_eq hm⟩
  have hcard := Finset.card_le_card_of_surjOn _ hsurj
  rw [Nat.card_Ioc, Nat.card_Icc] at hcard
  omega

end Cdcl.Trail
