import Mathlib.Data.List.Nodup
import Cdcl.Constraint.Reaction
import Cdcl.Proofs.Assignment
import Cdcl.Proofs.Trail.Valid

/-!
# What reactions do

`Constraint.Valid` says that a constraint speaks of distinct variables and watches one literal more
than its degree. A reaction only changes the order of the literals of a constraint (`react_perm`).
`Constraint.Reacts` says what each reaction promises, and `react_eq_ok` that the reaction to a false
literal keeps the promise, the key and the validity of the constraint.
-/

namespace Cdcl.Constraint
set_option autoImplicit false

/-- The literals that are not watched. -/
def resting : Constraint → List Literal
  | binary _ _ => []
  | watched _ _ rest => rest
  | atLeast _ _ rest => rest

/-- The variables are distinct, and one literal more is watched than has to hold. -/
structure Valid (c : Constraint) : Prop where
  distinct : (c.literals.map Literal.var).Nodup
  degree_pos : 1 ≤ c.degree
  length_watching : c.watching.length = c.degree + 1

/-- What the reaction of a constraint to a false literal promises. -/
def Reacts (t : Trail) (c : Constraint) (fals : Literal) (c' : Constraint) : Reaction → Prop
  | .keep => c'.watching.Perm c.watching ∧ ∀ u ∈ c.watching, u ≠ fals → t.holds u = true
  | .move m => c'.watching.Perm (m :: c.watching.erase fals) ∧ m ∈ c.resting ∧
      t.holds (-m) = false
  | .force ls => c'.watching.Perm c.watching ∧ (∀ u, u ∈ ls ↔ u ∈ c.watching ∧ u ≠ fals) ∧
      ∀ u ∈ c.resting, t.holds (-u) = true
  | .conflict => c'.watching.Perm c.watching ∧
      (∃ u ∈ c.watching, u ≠ fals ∧ t.holds (-u) = true) ∧ ∀ u ∈ c.resting, t.holds (-u) = true

variable {t : Trail} {c c' : Constraint} {l m fals : Literal} {ls : List Literal}

/-! ## Literals and keys -/

theorem literals_eq (c : Constraint) : c.literals = c.watching ++ c.resting := by
  cases c <;> rfl

theorem mem_literals : l ∈ c.literals ↔ l ∈ c.watching ∨ l ∈ c.resting := by
  rw [literals_eq, List.mem_append]

/-- Sorting forgets the order of a list. -/
theorem sort_eq_of_perm {ms : List Literal} (h : ls.Perm ms) : Literal.sort ls = Literal.sort ms := by
  have hperm := (Literal.sort_perm ls).trans (h.trans (Literal.sort_perm ms).symm)
  refine hperm.eq_of_pairwise (fun a b _ _ hab hba => ?_) (Literal.pairwise_sort ls)
    (Literal.pairwise_sort ms)
  exact Literal.code_injective (Nat.le_antisymm hab hba)

theorem key_eq_of_perm (hd : c'.degree = c.degree) (hl : c'.literals.Perm c.literals) :
    c'.key = c.key := by
  rw [key, key, hd, sorted, sorted, sort_eq_of_perm hl]

namespace Valid

theorem nodup (h : c.Valid) : c.literals.Nodup := List.Nodup.of_map _ h.distinct

theorem nodup_watching (h : c.Valid) : c.watching.Nodup := by
  have := h.nodup
  rw [literals_eq, List.nodup_append] at this
  exact this.1

theorem eq_of_var_eq (h : c.Valid) (hl : l ∈ c.literals) (hm : m ∈ c.literals)
    (hv : l.var = m.var) : l = m := List.inj_on_of_nodup_map h.distinct hl hm hv

theorem of_perm (h : c.Valid) (hd : c'.degree = c.degree) (hl : c'.literals.Perm c.literals)
    (hw : c'.watching.length = c.watching.length) : c'.Valid where
  distinct := (hl.map _).nodup_iff.2 h.distinct
  degree_pos := hd ▸ h.degree_pos
  length_watching := by rw [hw, hd, h.length_watching]

theorem length_resting (h : c.Valid) : c.resting.length + c.degree + 1 = c.literals.length := by
  have := h.length_watching
  rw [literals_eq, List.length_append]
  omega

/-- A stored constraint has a literal of another variable than a given one. -/
theorem exists_other (h : c.Valid) (v : Var) : ∃ l ∈ c.literals, l.var ≠ v := by
  have hlen := h.length_watching
  have hpos := h.degree_pos
  have hdistinct := h.distinct
  rw [c.literals_eq] at hdistinct ⊢
  cases hw : c.watching with
  | nil =>
    rw [hw, List.length_nil] at hlen
    omega
  | cons a rest =>
    cases rest with
    | nil =>
      rw [hw, List.length_singleton] at hlen
      omega
    | cons b rest =>
      rw [hw, List.cons_append, List.cons_append, List.map_cons, List.map_cons, List.nodup_cons,
        List.mem_cons, not_or] at hdistinct
      by_cases hav : a.var = v
      · exact ⟨b, by simp, fun hbv => hdistinct.1.1 (hav.trans hbv.symm)⟩
      · exact ⟨a, by simp, hav⟩

end Valid

/-! ## Searching -/

theorem splitAtOpen_eq_none (h : splitAtOpen t ls = .ok none) : ∀ l ∈ ls, t.holds (-l) = true := by
  induction ls with
  | nil => simp
  | cons l ls ih =>
    obtain ⟨b, hb, h⟩ := bind_eq_ok_iff.1 h
    rw [Trail.isFalsified_eq_ok hb] at h
    split at h
    · next hl =>
      obtain ⟨o, ho, h⟩ := bind_eq_ok_iff.1 h
      split at h
      · exact absurd h (by simp)
      · exact List.forall_mem_cons.2 ⟨hl, ih ho⟩
    · exact absurd h (by simp)

theorem splitAtOpen_eq_some {before after : List Literal}
    (h : splitAtOpen t ls = .ok (some (before, m, after))) :
    ls = before ++ m :: after ∧ t.holds (-m) = false := by
  induction ls generalizing before with
  | nil => exact absurd h (by simp [splitAtOpen])
  | cons l ls ih =>
    obtain ⟨b, hb, h⟩ := bind_eq_ok_iff.1 h
    rw [Trail.isFalsified_eq_ok hb] at h
    split at h
    · obtain ⟨o, ho, h⟩ := bind_eq_ok_iff.1 h
      split at h
      · next before' m' after' =>
        obtain ⟨rfl, rfl, rfl⟩ : l :: before' = before ∧ m' = m ∧ after' = after := by
          simpa using h
        obtain ⟨hls, hm⟩ := ih ho
        exact ⟨by rw [hls, List.cons_append], hm⟩
      · exact absurd h (by simp)
    · next hl =>
      obtain ⟨rfl, rfl, rfl⟩ : [] = before ∧ l = m ∧ ls = after := by simpa using h
      exact ⟨rfl, by simpa using hl⟩

theorem someFalsified_eq_ok {b : Bool} (h : someFalsified t ls = .ok b) :
    b = true ↔ ∃ l ∈ ls, t.holds (-l) = true := by
  induction ls with
  | nil =>
    obtain rfl : false = b := Except.ok.inj h
    simp
  | cons l ls ih =>
    obtain ⟨b', hb', h⟩ := bind_eq_ok_iff.1 h
    rw [Trail.isFalsified_eq_ok hb'] at h
    split at h
    · next hl =>
      obtain rfl : true = b := Except.ok.inj h
      simp [hl]
    · next hl => simp [hl, ih h]

theorem replaceFirst_perm (h : l ∈ ls) : (replaceFirst l m ls).Perm (m :: ls.erase l) := by
  induction ls with
  | nil => exact absurd h List.not_mem_nil
  | cons k ks ih =>
    rw [replaceFirst]
    split
    · next hk => rw [hk, List.erase_cons_head]
    · next hk =>
      have hin : l ∈ ks := (List.mem_cons.1 h).resolve_left fun e => hk e.symm
      rw [List.erase_cons_tail (by simpa using hk)]
      exact ((ih hin).cons k).trans (List.Perm.swap m k _)

theorem other_eq_ok {a b : Literal} (h : other a b l = .ok m) :
    (l = a ∧ m = b) ∨ (l = b ∧ m = a) := by
  unfold other at h
  split at h
  · next ha => exact Or.inl ⟨ha.symm, (Except.ok.inj h).symm⟩
  · split at h
    · next hb => exact Or.inr ⟨hb.symm, (Except.ok.inj h).symm⟩
    · exact absurd h (by simp)

/-! ## Reactions -/

/-- Two members of a list trade places across the boundary of two parts. -/
theorem perm_exchange {before after ws : List Literal} (h : l ∈ ws) :
    (m :: ws.erase l ++ (before ++ l :: after)).Perm (ws ++ (before ++ m :: after)) := by
  have hws : ws.Perm (l :: ws.erase l) := List.perm_cons_erase h
  refine List.perm_iff_count.2 fun k => ?_
  have hcount := hws.count_eq k
  simp only [List.count_append, List.count_cons] at hcount ⊢
  omega

theorem reactWatched_perm {head : Literal} {rest : List Literal} {r : Reaction}
    (h : reactWatched t head fals rest = .ok (c', r)) :
    c'.degree = 1 ∧ c'.literals.Perm (head :: fals :: rest) := by
  obtain ⟨b, -, h⟩ := bind_eq_ok_iff.1 h
  split at h
  · obtain ⟨rfl, -⟩ := Prod.mk.inj (Except.ok.inj h)
    exact ⟨rfl, .refl _⟩
  · obtain ⟨o, ho, h⟩ := bind_eq_ok_iff.1 h
    split at h
    · next before m after =>
      obtain ⟨rfl, -⟩ := Prod.mk.inj (Except.ok.inj h)
      obtain ⟨rfl, -⟩ := splitAtOpen_eq_some ho
      refine ⟨rfl, List.perm_iff_count.2 fun k => ?_⟩
      simp only [literals, List.count_append, List.count_cons]
      omega
    · obtain ⟨rfl, -⟩ := Prod.mk.inj (Except.ok.inj h)
      exact ⟨rfl, .refl _⟩

/-- A reaction only changes the order of the literals. -/
theorem react_perm {r : Reaction} (h : c.react t fals = .ok (c', r)) :
    c'.degree = c.degree ∧ c'.literals.Perm c.literals := by
  cases c with
  | binary a b =>
    obtain ⟨_, -, h⟩ := bind_eq_ok_iff.1 h
    obtain ⟨l, -, h⟩ := bind_eq_ok_iff.1 h
    obtain ⟨rfl, -⟩ := Prod.mk.inj (Except.ok.inj h)
    exact ⟨rfl, .refl _⟩
  | watched hd tl rest =>
    unfold react at h
    simp only at h
    split at h
    · next heq =>
      obtain ⟨hd', hl⟩ := reactWatched_perm h
      exact ⟨hd', heq ▸ hl.trans (.swap _ _ _)⟩
    · split at h
      · next heq => exact heq ▸ reactWatched_perm h
      · exact absurd h (by simp)
  | atLeast d watch rest =>
    obtain ⟨_, hreq, h⟩ := bind_eq_ok_iff.1 h
    have hin : fals ∈ watch := by simpa using require_eq_ok_iff.1 hreq
    obtain ⟨o, ho, h⟩ := bind_eq_ok_iff.1 h
    split at h
    · next before m after =>
      obtain ⟨rfl, -⟩ := Prod.mk.inj (Except.ok.inj h)
      obtain ⟨rfl, -⟩ := splitAtOpen_eq_some ho
      exact ⟨rfl, ((replaceFirst_perm hin).append_right _).trans (perm_exchange hin)⟩
    · obtain ⟨b, -, h⟩ := bind_eq_ok_iff.1 h
      obtain ⟨rfl, -⟩ := Prod.mk.inj (Except.ok.inj h)
      exact ⟨rfl, .refl _⟩

theorem reactWatched_eq_ok {head : Literal} {rest : List Literal} {r : Reaction}
    (hwatch : c.watching.Perm [head, fals]) (hrest : c.resting = rest) (hne : head ≠ fals)
    (h : reactWatched t head fals rest = .ok (c', r)) : Reacts t c fals c' r := by
  obtain ⟨b, hb, h⟩ := bind_eq_ok_iff.1 h
  obtain ⟨-, rfl⟩ := Trail.isSatisfied_eq_ok hb
  have hmem : ∀ u, u ∈ c.watching ∧ u ≠ fals ↔ u = head := by
    intro u
    rw [hwatch.mem_iff]
    constructor
    · rintro ⟨hu, hne⟩
      simpa [hne] using hu
    · rintro rfl
      exact ⟨List.mem_cons_self, hne⟩
  split at h
  · next hsat =>
    obtain ⟨rfl, rfl⟩ : watched head fals rest = c' ∧ Reaction.keep = r := by simpa using h
    refine ⟨hwatch.symm, fun u hu hne => ?_⟩
    rw [(hmem u).1 ⟨hu, hne⟩]
    exact hsat
  · obtain ⟨o, ho, h⟩ := bind_eq_ok_iff.1 h
    split at h
    · next before m after =>
      obtain ⟨rfl, rfl⟩ : watched head m (before ++ fals :: after) = c' ∧ Reaction.move m = r := by
        simpa using h
      obtain ⟨rfl, hm⟩ := splitAtOpen_eq_some ho
      refine ⟨?_, ?_, hm⟩
      · refine List.perm_iff_count.2 fun k => ?_
        have := (hwatch.erase fals).count_eq k
        rw [List.erase_cons_tail (by simpa using hne), List.erase_cons_head] at this
        simp only [watching, List.count_cons] at this ⊢
        omega
      · rw [hrest]
        simp
    · obtain ⟨rfl, rfl⟩ : watched head fals rest = c' ∧ Reaction.force [head] = r := by
        simpa using h
      refine ⟨hwatch.symm, fun u => ?_, ?_⟩
      · rw [hmem, List.mem_singleton]
      · rw [hrest]
        exact splitAtOpen_eq_none ho

/-- A reaction keeps its promise, and the constraint stays the same up to order. -/
theorem react_eq_ok {r : Reaction} (hc : c.Valid) (h : c.react t fals = .ok (c', r)) :
    fals ∈ c.watching ∧ c'.Valid ∧ c'.key = c.key ∧ Reacts t c fals c' r := by
  suffices hs : fals ∈ c.watching ∧ Reacts t c fals c' r by
    obtain ⟨hin, hr⟩ := hs
    obtain ⟨hd, hl⟩ := react_perm h
    refine ⟨hin, hc.of_perm hd hl ?_, key_eq_of_perm hd hl, hr⟩
    cases r with
    | keep => exact hr.1.length_eq
    | move m =>
      have hpos := List.length_pos_of_mem hin
      rw [hr.1.length_eq, List.length_cons, List.length_erase_of_mem hin]
      omega
    | force ls => exact hr.1.length_eq
    | conflict => exact hr.1.length_eq
  cases c with
  | binary a b =>
    obtain ⟨_, -, h⟩ := bind_eq_ok_iff.1 h
    obtain ⟨l, hl, h⟩ := bind_eq_ok_iff.1 h
    obtain ⟨rfl, rfl⟩ : binary a b = c' ∧ Reaction.force [l] = r := by simpa using h
    have hab : a ≠ b := by simpa [literals] using hc.nodup
    refine ⟨?_, List.Perm.refl _, fun u => ?_, by simp [resting]⟩
    · rcases other_eq_ok hl with ⟨rfl, -⟩ | ⟨rfl, -⟩ <;> simp [watching]
    · rcases other_eq_ok hl with ⟨rfl, rfl⟩ | ⟨rfl, rfl⟩
      · simp only [watching, List.mem_cons, List.not_mem_nil, or_false]
        exact ⟨fun hu => ⟨Or.inr hu, hu ▸ hab.symm⟩, fun hu => hu.1.resolve_left hu.2⟩
      · simp only [watching, List.mem_cons, List.not_mem_nil, or_false]
        exact ⟨fun hu => ⟨Or.inl hu, hu ▸ hab⟩, fun hu => hu.1.resolve_right hu.2⟩
  | watched hd tl rest =>
    have hne : hd ≠ tl := by
      have := hc.nodup_watching
      simpa [watching] using this
    unfold react at h
    simp only at h
    split at h
    · next heq =>
      subst heq
      exact ⟨List.mem_cons_self, reactWatched_eq_ok (List.Perm.swap _ _ _) rfl hne.symm h⟩
    · split at h
      · next heq =>
        subst heq
        exact ⟨by simp [watching], reactWatched_eq_ok (List.Perm.refl _) rfl hne h⟩
      · exact absurd h (by simp)
  | atLeast d watch rest =>
    obtain ⟨_, hreq, h⟩ := bind_eq_ok_iff.1 h
    have hin : fals ∈ watch := by simpa using require_eq_ok_iff.1 hreq
    obtain ⟨o, ho, h⟩ := bind_eq_ok_iff.1 h
    refine ⟨hin, ?_⟩
    split at h
    · next before m after =>
      obtain ⟨rfl, rfl⟩ : atLeast d (replaceFirst fals m watch) (before ++ fals :: after) = c' ∧
          Reaction.move m = r := by simpa using h
      obtain ⟨rfl, hm⟩ := splitAtOpen_eq_some ho
      exact ⟨replaceFirst_perm hin, by simp [resting], hm⟩
    · have hrest := splitAtOpen_eq_none ho
      obtain ⟨b, hb, h⟩ := bind_eq_ok_iff.1 h
      have hviolated := someFalsified_eq_ok hb
      cases b with
      | true =>
        obtain ⟨rfl, rfl⟩ : atLeast d watch rest = c' ∧ Reaction.conflict = r := by simpa using h
        obtain ⟨u, hu, huf⟩ := hviolated.1 rfl
        have hu' : u ∈ watch ∧ u ≠ fals := by simpa using hu
        exact ⟨List.Perm.refl _, ⟨u, hu'.1, hu'.2, huf⟩, hrest⟩
      | false =>
        obtain ⟨rfl, rfl⟩ : atLeast d watch rest = c' ∧
            Reaction.force (watch.filter (· != fals)) = r := by simpa using h
        exact ⟨List.Perm.refl _, fun u => by simp [watching], hrest⟩

end Cdcl.Constraint
