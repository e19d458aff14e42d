import Cdcl.Intake
import Cdcl.Literal.Lemmas
import Cdcl.Proofs.Trail.Meaning

/-!
# What is left of a constraint

Under the assignments that respect the trail, what `Intake` leaves of a constraint demands the same
as the constraint itself. `ClauseForm.LeftOf` and `AtLeastForm.LeftOf` say so for each form, and
`clause_eq_ok` and `atLeast_eq_ok` prove it. In an at-least constraint repeated literals are `counted`
as often as they occur if they are true on the trail, and once if they are unassigned.
-/

namespace Cdcl.Intake
set_option autoImplicit false

variable {t : Trail} {l k : Literal} {ls ms rest : List Literal} {a : Assignment}

/-! ## Reading under the trail -/

theorem someSatisfied_eq_ok {b : Bool} (h : someSatisfied t ls = .ok b) :
    b = true ↔ ∃ l ∈ ls, t.holds l = true := by
  induction ls with
  | nil =>
    obtain rfl : false = b := Except.ok.inj h
    simp
  | cons l ls ih =>
    obtain ⟨sat, hsat, h⟩ := bind_eq_ok_iff.1 h
    obtain ⟨-, rfl⟩ := Trail.isSatisfied_eq_ok hsat
    split at h
    · next hl =>
      obtain rfl : true = b := Except.ok.inj h
      simp [hl]
    · next hl => simp [hl, ih h]

theorem dropFalsified_eq_ok (h : dropFalsified t ls = .ok rest) :
    ∀ k, k ∈ rest ↔ k ∈ ls ∧ t.holds (-k) = false := by
  induction ls generalizing rest with
  | nil =>
    obtain rfl : [] = rest := Except.ok.inj h
    simp
  | cons l ls ih =>
    obtain ⟨fals, hfals, h⟩ := bind_eq_ok_iff.1 h
    obtain ⟨others, hothers, h⟩ := bind_eq_ok_iff.1 h
    rw [Trail.isFalsified_eq_ok hfals] at h
    obtain rfl := Except.ok.inj h
    intro k
    split
    · next hl =>
      rw [ih hothers, List.mem_cons]
      constructor
      · exact fun hk => ⟨Or.inr hk.1, hk.2⟩
      · rintro ⟨rfl | hk, hkf⟩
        · simp [hl] at hkf
        · exact ⟨hk, hkf⟩
    · next hl =>
      rw [List.mem_cons, ih hothers, List.mem_cons]
      constructor
      · rintro (rfl | hk)
        · exact ⟨Or.inl rfl, by simpa using hl⟩
        · exact ⟨Or.inr hk.1, hk.2⟩
      · rintro ⟨rfl | hk, hkf⟩
        · exact Or.inl rfl
        · exact Or.inr ⟨hk, hkf⟩

/-! ## Complementary pairs -/

theorem exists_of_hasPair (h : hasPair ls = true) : ∃ l, l ∈ ls ∧ -l ∈ ls := by
  induction ls with
  | nil => exact absurd h (by simp [hasPair])
  | cons l ls ih =>
    cases ls with
    | nil => exact absurd h (by simp [hasPair])
    | cons m ms =>
      rw [hasPair, Bool.or_eq_true] at h
      rcases h with h | h
      · have hlm : l = -m := by simpa using h
        exact ⟨m, by simp, by simp [hlm]⟩
      · obtain ⟨k, hk, hnk⟩ := ih h
        exact ⟨k, List.mem_cons_of_mem l hk, List.mem_cons_of_mem l hnk⟩

/-- The codes of the two literals of a variable are neighbours. -/
theorem code_of_var_eq (hv : k.var = l.var) (hlt : l.code < k.code) :
    k.code = l.code + 1 ∧ l = -k := by
  obtain ⟨⟨i⟩, kn⟩ := k
  obtain ⟨⟨j⟩, ln⟩ := l
  obtain rfl : i = j := congrArg Var.id hv
  cases kn with
  | false =>
    cases ln <;> simp only [Literal.code, Bool.toNat_false, Bool.toNat_true] at hlt <;> omega
  | true =>
    cases ln with
    | false => exact ⟨rfl, rfl⟩
    | true => exact absurd hlt (Nat.lt_irrefl _)

theorem nodup_of_not_hasPair (hasc : Literal.Ascending ls) (h : hasPair ls = false) :
    (ls.map Literal.var).Nodup := by
  induction ls with
  | nil => exact List.nodup_nil
  | cons l ls ih =>
    rw [Literal.Ascending, List.pairwise_cons] at hasc
    have hrest : hasPair ls = false := by
      cases ls with
      | nil => rfl
      | cons m ms =>
        rw [hasPair, Bool.or_eq_false_iff] at h
        exact h.2
    rw [List.map_cons, List.nodup_cons]
    refine ⟨fun hin => ?_, ih hasc.2 hrest⟩
    obtain ⟨k, hk, hv⟩ := List.mem_map.1 hin
    obtain ⟨hcode, hneg⟩ := code_of_var_eq hv (hasc.1 k hk)
    -- the first of the others lies between the two literals, so it is the second of them
    cases ls with
    | nil => exact absurd hk List.not_mem_nil
    | cons m ms =>
      have hm := hasc.1 m List.mem_cons_self
      have hmk : m.code ≤ k.code := by
        rcases List.mem_cons.1 hk with rfl | hk
        · exact Nat.le_refl _
        · exact Nat.le_of_lt ((List.pairwise_cons.1 hasc.2).1 k hk)
      have : m = k := Literal.code_injective (by omega)
      subst this
      simp [hasPair, ← hneg] at h

/-! ## Clauses -/

/-- The literals are unassigned, and their variables are distinct. -/
structure Open (t : Trail) (ls : List Literal) : Prop where
  unassigned : ∀ l ∈ ls, t.mark? l.var = none
  distinct : (ls.map Literal.var).Nodup

/-- The literals that are left are those that are not false, and they are open. -/
structure Remains (t : Trail) (ls rest : List Literal) : Prop extends Open t rest where
  members : ∀ k, k ∈ rest ↔ k ∈ ls ∧ t.holds (-k) = false

/-- What each form says about the clause that it is left of. -/
def ClauseForm.LeftOf (t : Trail) (ls : List Literal) : ClauseForm → Prop
  | .satisfied => ∀ a : Assignment, a.Respects t → a.Satisfies ls
  | .unit l => Remains t ls [l]
  | .clause rest => Remains t ls rest ∧ 2 ≤ rest.length

theorem Remains.satisfies_iff (h : Remains t ls rest) (ha : a.Respects t) :
    a.Satisfies ls ↔ a.Satisfies rest := by
  constructor
  · rintro ⟨l, hl, hal⟩
    refine ⟨l, (h.members l).2 ⟨hl, ?_⟩, hal⟩
    by_contra hfalse
    have := ha (-l) (by simpa using hfalse)
    simp [hal] at this
  · exact fun hs => hs.mono fun l hl => ((h.members l).1 hl).1

/-- No literal of a clause that is not done with is true. -/
theorem Remains.not_holds (h : Remains t ls rest) (ht : t.Valid) (hl : l ∈ ls) :
    t.holds l = false := by
  cases hfalse : t.holds (-l) with
  | true => simpa using ht.consistent hfalse
  | false =>
    have hrest : l ∈ rest := (h.members l).2 ⟨hl, hfalse⟩
    exact (Trail.unassigned_iff.1 (h.unassigned l hrest)).1

theorem satisfies_of_pair (hl : l ∈ ls) (hn : -l ∈ ls) (a : Assignment) : a.Satisfies ls := by
  cases h : a.makes l with
  | true => exact ⟨l, hl, h⟩
  | false => exact ⟨-l, hn, by simp [h]⟩

/-- What the outcome says about the clause: it fails only if all its literals are false. -/
def ClauseTaken (t : Trail) (ls : List Literal) : Except Contradiction ClauseForm → Prop
  | .error _ => ∀ l ∈ ls, t.holds (-l) = true
  | .ok form => form.LeftOf t ls

theorem classify_taken (hasc : Literal.Ascending rest)
    (hmem : ∀ k, k ∈ rest ↔ k ∈ ls ∧ t.holds (-k) = false)
    (hunassigned : ∀ k ∈ rest, t.mark? k.var = none) : ClauseTaken t ls (classify rest) := by
  unfold classify
  split
  · next hpair =>
    obtain ⟨k, hk, hnk⟩ := exists_of_hasPair hpair
    exact fun a _ => satisfies_of_pair ((hmem k).1 hk).1 ((hmem (-k)).1 hnk).1 a
  · next hpair =>
    have hleft : Remains t ls rest :=
      ⟨⟨hunassigned, nodup_of_not_hasPair hasc (by simpa using hpair)⟩, hmem⟩
    split
    · intro l hl
      by_contra hnf
      exact List.not_mem_nil ((hmem l).2 ⟨hl, by simpa using hnf⟩)
    · exact hleft
    · next hnil hone =>
      refine ⟨hleft, ?_⟩
      match rest, hnil, hone with
      | [], hnil, _ => exact absurd rfl hnil
      | [l], _, hone => exact absurd rfl (hone l)
      | _ :: _ :: _, _, _ => simp

/-- A clause is done with if a literal of it is true; otherwise the literals that are not false are
classified. -/
theorem clause_cases {r : Except Contradiction ClauseForm} (h : clause ls t = .ok r) :
    ((∃ l ∈ ls, t.holds l = true) ∧ r = .ok .satisfied) ∨
      ∃ rest, (∀ l ∈ ls, t.holds l = false) ∧ Literal.Ascending rest ∧
        (∀ k, k ∈ rest ↔ k ∈ ls ∧ t.holds (-k) = false) ∧ r = classify rest := by
  obtain ⟨sat, hsat, h⟩ := bind_eq_ok_iff.1 h
  have hsome := someSatisfied_eq_ok hsat
  split at h
  · next htrue => exact Or.inl ⟨hsome.1 htrue, (Except.ok.inj h).symm⟩
  · next hfalse =>
    obtain ⟨rest, hrest, h⟩ := bind_eq_ok_iff.1 h
    refine Or.inr ⟨Literal.canonical rest, fun l hl => ?_, Literal.ascending_canonical rest,
      fun k => ?_, (Except.ok.inj h).symm⟩
    · by_contra hlt
      exact hfalse (hsome.2 ⟨l, hl, by simpa using hlt⟩)
    · rw [Literal.mem_canonical, dropFalsified_eq_ok hrest]

theorem clause_eq_ok {r : Except Contradiction ClauseForm} (h : clause ls t = .ok r) :
    ClauseTaken t ls r := by
  rcases clause_cases h with ⟨⟨l, hl, hlt⟩, rfl⟩ | ⟨rest, hfalse, hasc, hmem, rfl⟩
  · exact fun a ha => ⟨l, hl, ha l hlt⟩
  · refine classify_taken hasc hmem fun k hk => ?_
    obtain ⟨hin, hnf⟩ := (hmem k).1 hk
    exact Trail.unassigned_iff.2 ⟨hfalse k hin, hnf⟩

theorem clause_singleton {r : Except Contradiction ClauseForm} (h : clause [l] t = .ok r) :
    (t.holds l = true ∧ r = .ok .satisfied) ∨ r = .error .emptyClause ∨ r = .ok (.unit l) := by
  obtain ⟨sat, hsat, h⟩ := bind_eq_ok_iff.1 h
  have hsome := someSatisfied_eq_ok hsat
  split at h
  · next htrue =>
    obtain rfl := Except.ok.inj h
    obtain ⟨k, hk, hkt⟩ := hsome.1 htrue
    exact Or.inl ⟨List.mem_singleton.1 hk ▸ hkt, rfl⟩
  · obtain ⟨rest, hrest, h⟩ := bind_eq_ok_iff.1 h
    obtain rfl := Except.ok.inj h
    obtain ⟨fals, -, hrest⟩ := bind_eq_ok_iff.1 hrest
    obtain ⟨none, hnone, hrest⟩ := bind_eq_ok_iff.1 hrest
    obtain rfl := Except.ok.inj hnone
    obtain rfl := Except.ok.inj hrest
    cases fals with
    | true => exact Or.inr (Or.inl rfl)
    | false => exact Or.inr (Or.inr rfl)

/-! ## Counting towards a degree -/

theorem signedDegree_of_lt {degree : Nat} (h : degree < Word.addressable) :
    signedDegree degree = degree := if_pos h

theorem lower_eq_ok {d d' : Int} (h : lower d = .ok d') : d' = d - 1 := by
  unfold lower at h
  split at h
  · exact absurd h (by simp)
  · exact (Except.ok.inj h).symm

/-- Whether a literal is unassigned. -/
def isOpen (t : Trail) (l : Literal) : Bool := !t.holds l && !t.holds (-l)

theorem isOpen_iff : isOpen t l = true ↔ t.mark? l.var = none := by
  rw [Trail.unassigned_iff, isOpen, Bool.and_eq_true, Bool.not_eq_true', Bool.not_eq_true']

/-- True literals lower the degree, and of the others the unassigned ones are left. -/
theorem countSatisfied_eq_ok {d d' : Int} (h : countSatisfied t d ls = .ok (d', rest)) :
    rest = ls.filter (isOpen t) ∧ d' + ls.countP t.holds = d := by
  induction ls generalizing d rest with
  | nil =>
    obtain ⟨rfl, rfl⟩ := Prod.mk.inj (Except.ok.inj h)
    exact ⟨rfl, Int.add_zero _⟩
  | cons l ls ih =>
    obtain ⟨sat, hsat, h⟩ := bind_eq_ok_iff.1 h
    obtain ⟨-, rfl⟩ := Trail.isSatisfied_eq_ok hsat
    split at h
    · next hl =>
      obtain ⟨d₁, hd₁, h⟩ := bind_eq_ok_iff.1 h
      obtain ⟨hrest, hdegree⟩ := ih h
      have hlow := lower_eq_ok hd₁
      refine ⟨hrest.trans (List.filter_cons_of_neg (by simp [isOpen, hl])).symm, ?_⟩
      rw [List.countP_cons, if_pos hl]
      omega
    · next hl =>
      obtain ⟨fals, hfals, h⟩ := bind_eq_ok_iff.1 h
      obtain ⟨⟨d₁, opened⟩, hopened, h⟩ := bind_eq_ok_iff.1 h
      obtain ⟨rfl, rfl⟩ := Prod.mk.inj (Except.ok.inj h)
      obtain ⟨rfl, hdegree⟩ := ih hopened
      rw [Trail.isFalsified_eq_ok hfals, List.countP_cons, if_neg hl]
      refine ⟨?_, by omega⟩
      rw [List.filter_cons]
      split <;> simp_all [isOpen]

/-- Under an assignment that respects the trail, the literals that are true on the trail and some of
the unassigned ones are true. -/
theorem count_eq (ha : a.Respects t) (ls : List Literal) :
    a.count ls = ls.countP t.holds + a.count (ls.filter (isOpen t)) := by
  induction ls with
  | nil => rfl
  | cons l ls ih =>
    unfold Assignment.count at ih ⊢
    rw [List.countP_cons, List.countP_cons, List.filter_cons, ih]
    by_cases hl : t.holds l = true
    · have hmakes := ha l hl
      simp [isOpen, hl, hmakes]
      omega
    · by_cases hn : t.holds (-l) = true
      · have hmakes : a.makes l = false := by simpa using ha _ hn
        simp [isOpen, hl, hn, hmakes]
      · simp [isOpen, hl, hn, List.countP_cons]
        omega

/-- Cancelling pairs lowers the degree as much as the number of true literals, and leaves distinct
variables. -/
theorem cancelPairs_eq_ok {d d' : Int} {kept : List Literal}
    (h : cancelPairs d kept ls = .ok (d', rest)) (hasc : Literal.Ascending (kept.reverse ++ ls))
    (hkept : (kept.map Literal.var).Nodup) :
    (∀ l ∈ rest, l ∈ kept ∨ l ∈ ls) ∧ (rest.map Literal.var).Nodup ∧
      ∀ a : Assignment, d' + a.count kept + a.count ls = d + a.count rest := by
  induction ls generalizing d kept with
  | nil =>
    unfold cancelPairs at h
    obtain ⟨rfl, rfl⟩ := Prod.mk.inj (Except.ok.inj h)
    refine ⟨by simp, ?_, fun a => ?_⟩
    · rw [List.map_reverse]
      exact List.nodup_reverse.2 hkept
    · rw [a.count_perm kept.reverse_perm]
      simp [Assignment.count]
  | cons l ls ih =>
    cases kept with
    | nil =>
      rw [cancelPairs] at h
      obtain ⟨hmem, hnodup, hcount⟩ := ih h (by simpa using hasc) (by simp)
      refine ⟨fun k hk => by simpa using hmem k hk, hnodup, fun a => ?_⟩
      have hrest := hcount a
      unfold Assignment.count at hrest ⊢
      rw [List.countP_cons, List.countP_nil] at *
      omega
    | cons k kept =>
      have hsplit : Literal.Ascending (kept.reverse ++ ([k] ++ l :: ls)) := by
        simpa using hasc
      rw [Literal.Ascending, List.pairwise_append] at hsplit
      obtain ⟨hbefore, hafter, hcross⟩ := hsplit
      rw [List.map_cons, List.nodup_cons] at hkept
      rw [cancelPairs] at h
      split at h
      · next hkl =>
        obtain ⟨d₁, hd₁, h⟩ := bind_eq_ok_iff.1 h
        have hasc' : Literal.Ascending (kept.reverse ++ ls) := by
          refine hasc.sublist ?_
          simp
        obtain ⟨hmem, hnodup, hcount⟩ := ih h hasc' hkept.2
        refine ⟨fun j hj => ?_, hnodup, fun a => ?_⟩
        · exact (hmem j hj).imp (List.mem_cons_of_mem k) (List.mem_cons_of_mem l)
        · have hrest := hcount a
          have hlow := lower_eq_ok hd₁
          have hpair : a.makes k = !a.makes l := by rw [hkl, Assignment.makes_neg]
          unfold Assignment.count at hrest ⊢
          rw [List.countP_cons, List.countP_cons, hpair]
          cases a.makes l
          · simp only [Bool.not_false, if_true, Bool.false_eq_true, if_false]
            omega
          · simp only [Bool.not_true, if_true, Bool.false_eq_true, if_false]
            omega
      · next hkl =>
        have hasc' : Literal.Ascending ((l :: k :: kept).reverse ++ ls) := by
          simpa using hasc
        have hnew : l.var ∉ (k :: kept).map Literal.var := by
          intro hin
          obtain ⟨j, hj, hv⟩ := List.mem_map.1 hin
          have hkl' : k.code < l.code := by
            have := (List.pairwise_cons.1 hafter).1 l
            exact this (by simp)
          rcases List.mem_cons.1 hj with rfl | hj
          · exact hkl (code_of_var_eq hv.symm hkl').2
          · have hjk : j.code < k.code := hcross j (List.mem_reverse.2 hj) k (by simp)
            have := (code_of_var_eq hv.symm (Nat.lt_trans hjk hkl')).1
            omega
        obtain ⟨hmem, hnodup, hcount⟩ := ih h hasc'
          (by rw [List.map_cons, List.nodup_cons]; exact ⟨hnew, List.nodup_cons.2 hkept⟩)
        refine ⟨fun j hj => ?_, hnodup, fun a => ?_⟩
        · rcases hmem j hj with hj | hj
          · rcases List.mem_cons.1 hj with rfl | hj
            · exact Or.inr List.mem_cons_self
            · exact Or.inl hj
          · exact Or.inr (List.mem_cons_of_mem l hj)
        · have hrest := hcount a
          unfold Assignment.count at hrest ⊢
          simp only [List.countP_cons] at hrest ⊢
          omega

/-! ## At-least constraints -/

/-- What each form says about the at-least constraint that it is left of. -/
def AtLeastForm.LeftOf (t : Trail) (ls : List Literal) (degree : Nat) : AtLeastForm → Prop
  | .satisfied => ∀ a : Assignment, a.Respects t → degree ≤ a.count ls
  | .units us => Open t us ∧ us ⊆ ls ∧
      ∀ a : Assignment, a.Respects t → (degree ≤ a.count ls ↔ ∀ u ∈ us, a.makes u = true)
  | .clause form => ∃ kept, kept ⊆ ls ∧ form.LeftOf t kept ∧
      ∀ a : Assignment, a.Respects t → (degree ≤ a.count ls ↔ a.Satisfies kept)
  | .atLeast rest d => Open t rest ∧ rest ⊆ ls ∧
      ∀ a : Assignment, a.Respects t → (degree ≤ a.count ls ↔ d ≤ a.count rest)

/-- What the outcome says about the at-least constraint: it fails only if the constraint cannot
hold. -/
def AtLeastTaken (t : Trail) (ls : List Literal) (degree : Nat) :
    Except Contradiction AtLeastForm → Prop
  | .error _ => ∀ a : Assignment, a.Respects t → ¬ degree ≤ a.count ls
  | .ok form => form.LeftOf t ls degree

theorem classifyAtLeast_taken {d : Int} {degree : Nat} {r : Except Contradiction AtLeastForm}
    (hopen : Open t rest) (hsub : rest ⊆ ls)
    (hcount : ∀ a : Assignment, a.Respects t → (degree ≤ a.count ls ↔ d ≤ a.count rest))
    (h : classifyAtLeast d rest t = .ok r) : AtLeastTaken t ls degree r := by
  unfold classifyAtLeast at h
  have hle : ∀ a : Assignment, a.count rest ≤ rest.length := fun a => List.countP_le_length
  split at h
  · next hd =>
    obtain rfl := Except.ok.inj h
    intro a ha
    rw [hcount a ha]
    omega
  · split at h
    · next hd =>
      obtain rfl := Except.ok.inj h
      intro a ha
      have := hle a
      rw [hcount a ha]
      omega
    · split at h
      · next hd =>
        obtain rfl := Except.ok.inj h
        refine ⟨hopen, hsub, fun a ha => ?_⟩
        have := hle a
        rw [hcount a ha, hd, Int.ofNat_le]
        exact ⟨fun hge => List.countP_eq_length.1 (Nat.le_antisymm this hge),
          fun hall => Nat.le_of_eq (List.countP_eq_length.2 hall).symm⟩
      · split at h
        · next hd =>
          have hclause : ∀ a : Assignment, a.Respects t →
              (degree ≤ a.count ls ↔ a.Satisfies rest) := by
            intro a ha
            rw [hcount a ha, hd, ← Assignment.count_pos_iff]
            omega
          obtain ⟨o, ho, h⟩ := bind_eq_ok_iff.1 h
          have htaken := clause_eq_ok ho
          split at h
          · next form =>
            obtain rfl := Except.ok.inj h
            exact ⟨rest, hsub, htaken, hclause⟩
          · obtain rfl := Except.ok.inj h
            intro a ha
            rw [hclause a ha]
            rintro ⟨l, hl, hal⟩
            have := ha _ (htaken l hl)
            simp [hal] at this
        · next hd =>
          obtain rfl := Except.ok.inj h
          refine ⟨hopen, hsub, fun a ha => ?_⟩
          rw [hcount a ha]
          omega

/-- The literals of a list as an intake counts them: those that are true on the trail as often as they
occur, and the unassigned ones once. -/
def counted (t : Trail) (ls : List Literal) : List Literal :=
  ls.filter t.holds ++ Literal.canonical (ls.filter (isOpen t))

theorem counted_subset : counted t ls ⊆ ls := by
  intro l hl
  rcases List.mem_append.1 hl with hl | hl
  · exact List.mem_of_mem_filter hl
  · exact List.mem_of_mem_filter (Literal.mem_canonical.1 hl)

theorem count_counted (ha : a.Respects t) :
    a.count (counted t ls) =
      ls.countP t.holds + a.count (Literal.canonical (ls.filter (isOpen t))) := by
  unfold counted Assignment.count
  rw [List.countP_append, List.countP_eq_length_filter (p := t.holds)]
  congr 1
  exact List.countP_eq_length.2 fun l hl => ha l (List.of_mem_filter hl)

theorem count_counted_le (ha : a.Respects t) : a.count (counted t ls) ≤ a.count ls := by
  have hall := count_eq ha ls
  rw [count_counted ha, hall]
  exact Nat.add_le_add_left (Assignment.count_canonical_le a _) _

theorem le_count_counted (ha : a.Respects t) :
    a.count (Literal.canonical ls) ≤ a.count (counted t ls) := by
  have hsub : (Literal.canonical ls).filter a.makes ⊆ (counted t ls).filter a.makes := by
    intro l hl
    obtain ⟨hl, hmakes⟩ := List.mem_filter.1 hl
    have hin := Literal.mem_canonical.1 hl
    refine List.mem_filter.2 ⟨List.mem_append.2 ?_, hmakes⟩
    by_cases hholds : t.holds l = true
    · exact Or.inl (List.mem_filter.2 ⟨hin, hholds⟩)
    · refine Or.inr (Literal.mem_canonical.2 (List.mem_filter.2 ⟨hin, ?_⟩))
      cases hn : t.holds (-l) with
      | true => simpa [hmakes] using ha _ hn
      | false => simp [isOpen, hholds, hn]
  unfold Assignment.count
  rw [List.countP_eq_length_filter, List.countP_eq_length_filter]
  exact (List.subperm_of_subset ((Assignment.nodup_canonical ls).filter _) hsub).length_le

theorem atLeast_eq_ok {degree : Nat} {r : Except Contradiction AtLeastForm}
    (hdegree : degree < Word.addressable) (h : atLeast ls degree t = .ok r) :
    AtLeastTaken t (counted t ls) degree r := by
  obtain ⟨⟨d₁, opened⟩, hopened, h⟩ := bind_eq_ok_iff.1 h
  obtain ⟨⟨d₂, kept⟩, hkept, h⟩ := bind_eq_ok_iff.1 h
  rw [signedDegree_of_lt hdegree] at hopened
  obtain ⟨hrest, hcount₁⟩ := countSatisfied_eq_ok hopened
  rw [hrest] at hkept
  have hasc := Literal.ascending_canonical (ls.filter (isOpen t))
  obtain ⟨hmem, hnodup, hcount₂⟩ := cancelPairs_eq_ok hkept (by simpa using hasc) List.nodup_nil
  have hin : ∀ l ∈ kept, l ∈ Literal.canonical (ls.filter (isOpen t)) := by
    intro l hl
    simpa using hmem l hl
  have hunassigned : ∀ l ∈ kept, t.mark? l.var = none := fun l hl =>
    isOpen_iff.1 (List.of_mem_filter (Literal.mem_canonical.1 (hin l hl)))
  refine classifyAtLeast_taken ⟨hunassigned, hnodup⟩
    (fun l hl => List.mem_append_right _ (hin l hl)) (fun a ha => ?_) h
  have h₂ := hcount₂ a
  rw [count_counted ha]
  simp only [Assignment.count, List.countP_nil] at h₂ ⊢
  omega

/-! ## Degrees that no signed word holds -/

theorem cancelPairs_le {d d' : Int} {kept : List Literal}
    (h : cancelPairs d kept ls = .ok (d', rest)) : d' ≤ d := by
  induction ls generalizing d kept with
  | nil =>
    obtain ⟨rfl, -⟩ := Prod.mk.inj (Except.ok.inj h)
    exact Int.le_refl _
  | cons l ls ih =>
    cases kept with
    | nil => exact ih h
    | cons k kept =>
      unfold cancelPairs at h
      split at h
      · obtain ⟨d₁, hd₁, h⟩ := bind_eq_ok_iff.1 h
        have hle := ih h
        rw [lower_eq_ok hd₁] at hle
        omega
      · exact ih h

/-- Read as a signed word such a degree is negative, and it is only lowered further. -/
theorem atLeast_eq_ok_of_large {degree : Nat} {r : Except Contradiction AtLeastForm}
    (hlarge : Word.addressable ≤ degree) (hword : degree < Word.limit)
    (h : atLeast ls degree t = .ok r) : r = .ok .satisfied := by
  obtain ⟨⟨d₁, opened⟩, hopened, h⟩ := bind_eq_ok_iff.1 h
  obtain ⟨⟨d₂, kept⟩, hkept, h⟩ := bind_eq_ok_iff.1 h
  have hsigned : signedDegree degree < 0 := by
    unfold signedDegree
    rw [if_neg (Nat.not_lt.2 hlarge)]
    omega
  obtain ⟨-, hcount⟩ := countSatisfied_eq_ok hopened
  have hle := cancelPairs_le hkept
  have hneg : d₂ ≤ 0 := by omega
  exact (Except.ok.inj ((if_pos hneg).symm.trans h)).symm

end Cdcl.Intake
