import Cdcl.Constraint.Reason
import Cdcl.Proofs.Constraint.Reaction

/-!
# Why a constraint forces a literal

A constraint has forced a literal if so many of its literals became false before that all others have
to hold (`Forces`), and it is violated if even that is not enough (`Violated`). `ExplainsForced` and
`ExplainsViolated` say that a list of true literals is an explanation; `explain_forced` and
`explain_violated` give them for the explanations of a constraint. `Forces.makes` and
`Violated.not_holds` tell what the two mean for assignments.
-/

namespace Cdcl
set_option autoImplicit false

/-- Whether a literal became false before the given place of the trail. -/
def Trail.falseBefore (t : Trail) (p : Nat) (l : Literal) : Bool :=
  t.holds (-l) && Decidable.decide (t.place l.var < p)

namespace Constraint

/-- When the literal joined the trail, the constraint left no choice. -/
structure Forces (t : Trail) (c : Constraint) (l : Literal) : Prop where
  watched : l ∈ c.watching
  enough : c.literals.length ≤ c.degree + c.literals.countP (t.falseBefore (t.place l.var))

/-- Too many literals are false. -/
def Violated (t : Trail) (c : Constraint) : Prop :=
  c.literals.length < c.degree + c.literals.countP fun l => t.holds (-l)

variable {t t' : Trail} {c c' : Constraint} {l k : Literal} {ls why : List Literal}
  {a : Assignment} {m m' : Mark}

/-! ## Counting -/

/-- True literals and false ones are different. -/
theorem count_add_countP_le {q : Literal → Bool}
    (h : ∀ k ∈ ls, q k = true → a.makes k = false) : a.count ls + ls.countP q ≤ ls.length := by
  induction ls with
  | nil => simp [Assignment.count]
  | cons k ks ih =>
    obtain ⟨hk, hks⟩ := List.forall_mem_cons.1 h
    have hrest := ih hks
    unfold Assignment.count at hrest ⊢
    rw [List.countP_cons, List.countP_cons, List.length_cons]
    cases hq : q k with
    | true => simp only [hk hq, Bool.false_eq_true, if_false, if_true]; omega
    | false => simp only [Bool.false_eq_true, if_false]; split <;> omega

/-- A literal that is neither leaves room for fewer. -/
theorem count_add_countP_lt {q : Literal → Bool}
    (h : ∀ k ∈ ls, q k = true → a.makes k = false) (hl : l ∈ ls) (hq : q l = false)
    (ha : a.makes l = false) : a.count ls + ls.countP q < ls.length := by
  have hperm : ls.Perm (l :: ls.erase l) := List.perm_cons_erase hl
  have hrest : a.count (ls.erase l) + (ls.erase l).countP q ≤ (ls.erase l).length :=
    count_add_countP_le fun k hk => h k (List.mem_of_mem_erase hk)
  unfold Assignment.count at hrest ⊢
  rw [hperm.countP_eq, hperm.countP_eq, hperm.length_eq, List.countP_cons, List.countP_cons, ha, hq]
  simp only [Bool.false_eq_true, if_false, List.length_cons]
  omega

/-! ## Forcing -/

theorem falseBefore_iff {p : Nat} (ht : t.Valid) : t.falseBefore p l = true ↔
    ∃ m, t.mark? l.var = some m ∧ m.negative ≠ l.negative ∧ m.position < p := by
  unfold Trail.falseBefore
  rw [Bool.and_eq_true, ht.holds_neg_iff, decide_eq_true_eq]
  constructor
  · rintro ⟨⟨m, hm, hneg⟩, hlt⟩
    exact ⟨m, hm, hneg, Trail.place_eq hm ▸ hlt⟩
  · rintro ⟨m, hm, hneg, hlt⟩
    exact ⟨⟨m, hm, hneg⟩, (Trail.place_eq hm).symm ▸ hlt⟩

theorem falseBefore_extends {p : Nat} (ht : t.Extends t') (h : t.falseBefore p l = true) :
    t'.falseBefore p l = true := by
  obtain ⟨hneg, hlt⟩ := Bool.and_eq_true_iff.1 h
  obtain ⟨m, hm⟩ := Trail.exists_mark_neg hneg
  rw [Trail.place_eq hm] at hlt
  refine Bool.and_eq_true_iff.2 ⟨ht.holds hneg, ?_⟩
  rwa [Trail.place_eq (ht.marks hm)]

namespace Forces

/-- A literal stays forced as long as the literals before it stay. -/
theorem of_marks (h : Forces t c l) (ht : t.Valid) (ht' : t'.Valid)
    (hm : t.mark? l.var = some m) (hm' : t'.mark? l.var = some m')
    (hpos : m'.position = m.position)
    (hkeep : ∀ v n, t.mark? v = some n → n.position < m.position →
      ∃ n', t'.mark? v = some n' ∧ n'.negative = n.negative ∧ n'.position = n.position) :
    Forces t' c l := by
  refine ⟨h.watched, Nat.le_trans h.enough (Nat.add_le_add_left (List.countP_mono_left ?_) _)⟩
  intro k _ hk
  rw [Trail.place_eq hm] at hk
  rw [Trail.place_eq hm', hpos]
  obtain ⟨n, hn, hneg, hlt⟩ := (falseBefore_iff ht).1 hk
  obtain ⟨n', hn', hneg', hpos'⟩ := hkeep _ n hn hlt
  exact (falseBefore_iff ht').2 ⟨n', hn', hneg' ▸ hneg, hpos' ▸ hlt⟩

theorem of_extends (h : Forces t c l) (hm : t.mark? l.var = some m) (ht : t.Extends t') :
    Forces t' c l := by
  refine ⟨h.watched, Nat.le_trans h.enough (Nat.add_le_add_left (List.countP_mono_left ?_) _)⟩
  intro k _ hk
  rw [Trail.place_eq (ht.marks hm), ← Trail.place_eq hm]
  exact falseBefore_extends ht hk

theorem of_key (h : Forces t c l) (hkey : c'.key = c.key) (hl : l ∈ c'.watching) :
    Forces t c' l := by
  have hperm := perm_of_key_eq hkey
  refine ⟨hl, ?_⟩
  rw [hperm.length_eq, degree_of_key_eq hkey, hperm.countP_eq]
  exact h.enough

/-- In a clause every other literal became false before. -/
theorem falseBefore_of_clause (h : Forces t c l) (ht : t.Valid) (hc : c.degree = 1)
    (hk : k ∈ c.literals) (hne : k ≠ l) (hl : t.holds l = true) :
    t.falseBefore (t.place l.var) k = true := by
  by_contra hno
  have hlf : t.falseBefore (t.place l.var) l = false := by
    simp [Trail.falseBefore, ht.consistent hl]
  have hlin : l ∈ c.literals.erase k :=
    (List.mem_erase_of_ne hne.symm).2 (mem_literals.2 (Or.inl h.watched))
  have hperm : c.literals.Perm (k :: l :: (c.literals.erase k).erase l) :=
    (List.perm_cons_erase hk).trans ((List.perm_cons_erase hlin).cons k)
  have henough := h.enough
  rw [hperm.length_eq, hperm.countP_eq, hc, List.countP_cons, List.countP_cons, hlf,
    if_neg hno] at henough
  have hle : ((c.literals.erase k).erase l).countP (t.falseBefore (t.place l.var)) ≤ _ :=
    List.countP_le_length
  simp only [Bool.false_eq_true, if_false, List.length_cons] at henough
  omega

/-- A forced literal holds where the constraint holds and the literals before it are the same. -/
theorem makes (h : Forces t c l) (ht : t.Valid) (hl : t.holds l = true) (hc : c.demand.Holds a)
    (hbefore : ∀ k ∈ c.literals, t.falseBefore (t.place l.var) k = true → a.makes (-k) = true) :
    a.makes l = true := by
  by_contra hno
  have hlf : t.falseBefore (t.place l.var) l = false := by
    simp [Trail.falseBefore, ht.consistent hl]
  have hlt := count_add_countP_lt (a := a) (l := l) (q := t.falseBefore (t.place l.var))
    (fun k hk hkf => by simpa using hbefore k hk hkf) (mem_literals.2 (Or.inl h.watched)) hlf
    (by simpa using hno)
  have henough := h.enough
  unfold Demand.Holds demand at hc
  simp only at hc
  omega

end Forces

namespace Violated

theorem of_key (h : Violated t c) (hkey : c'.key = c.key) : Violated t c' := by
  have hperm := perm_of_key_eq hkey
  unfold Violated at h ⊢
  rwa [hperm.length_eq, degree_of_key_eq hkey, hperm.countP_eq]

theorem falsified (h : Violated t c) (hc : c.degree = 1) (hk : k ∈ c.literals) :
    t.holds (-k) = true := by
  unfold Violated at h
  have hle : c.literals.countP (fun l => t.holds (-l)) ≤ c.literals.length := List.countP_le_length
  have heq : c.literals.countP (fun l => t.holds (-l)) = c.literals.length := by omega
  exact List.countP_eq_length.1 heq k hk

/-- A violated constraint does not hold where its false literals are false. -/
theorem not_holds (h : Violated t c)
    (hfalse : ∀ k ∈ c.literals, t.holds (-k) = true → a.makes (-k) = true) :
    ¬ c.demand.Holds a := by
  intro hc
  have hle : a.count c.literals + c.literals.countP (fun k => t.holds (-k)) ≤ c.literals.length :=
    count_add_countP_le fun k hk hkf => by simpa using hfalse k hk hkf
  unfold Violated at h
  unfold Demand.Holds demand at hc
  simp only at hc
  omega

end Violated

/-! ## Explanations -/

theorem negatedOthers_eq_ok {implied : Option Literal}
    (h : negatedOthers t implied ls = .ok why) :
    (∀ k, k ∈ why ↔ -k ∈ ls ∧ some (-k) ≠ implied) ∧
      ∀ k ∈ ls, some k ≠ implied → t.holds (-k) = true := by
  induction ls generalizing why with
  | nil =>
    obtain rfl : [] = why := Except.ok.inj h
    simp
  | cons l ls ih =>
    rw [negatedOthers] at h
    split at h
    · next hl =>
      obtain ⟨hmem, hfalse⟩ := ih h
      refine ⟨fun k => ?_, List.forall_mem_cons.2 ⟨fun hne => absurd hl hne, hfalse⟩⟩
      rw [hmem, List.mem_cons]
      exact ⟨fun hk => ⟨Or.inr hk.1, hk.2⟩,
        fun hk => ⟨hk.1.resolve_left fun e => hk.2 (e ▸ hl), hk.2⟩⟩
    · next hl =>
      obtain ⟨b, hb, h⟩ := bind_eq_ok_iff.1 h
      rw [Trail.isFalsified_eq_ok hb] at h
      obtain ⟨_, hreq, h⟩ := bind_eq_ok_iff.1 h
      obtain ⟨rest, hrest, h⟩ := bind_eq_ok_iff.1 h
      obtain rfl : -l :: rest = why := Except.ok.inj h
      obtain ⟨hmem, hfalse⟩ := ih hrest
      refine ⟨fun k => ?_, List.forall_mem_cons.2 ⟨fun _ => require_eq_ok_iff.1 hreq, hfalse⟩⟩
      rw [List.mem_cons, List.mem_cons, hmem]
      constructor
      · rintro (rfl | ⟨hk, hne⟩)
        · exact ⟨Or.inl (Literal.neg_neg l), (Literal.neg_neg l).symm ▸ hl⟩
        · exact ⟨Or.inr hk, hne⟩
      · rintro ⟨hk | hk, hne⟩
        · exact Or.inl (by rw [← hk, Literal.neg_neg])
        · exact Or.inr ⟨hk, hne⟩

theorem negatedBefore_eq_ok {limit : Option Nat} (h : negatedBefore t limit ls = .ok why) :
    ∀ k, k ∈ why ↔ -k ∈ ls ∧ t.holds k = true ∧ ∀ p, limit = some p → t.place k.var ≤ p := by
  induction ls generalizing why with
  | nil =>
    obtain rfl : [] = why := Except.ok.inj h
    simp
  | cons l ls ih =>
    have hneg : ∀ k : Literal, -k = l ↔ k = -l :=
      fun k => ⟨fun e => by rw [← e, Literal.neg_neg], fun e => by rw [e, Literal.neg_neg]⟩
    obtain ⟨b, hb, h⟩ := bind_eq_ok_iff.1 h
    rw [Trail.isFalsified_eq_ok hb] at h
    intro k
    split at h
    · next hl =>
      obtain ⟨late, rest, hrest, hlate, rfl⟩ : ∃ late rest, negatedBefore t limit ls = .ok rest ∧
          (late = false ↔ ∀ p, limit = some p → t.place l.var ≤ p) ∧
          (if late then rest else -l :: rest) = why := by
        cases limit with
        | none =>
          obtain ⟨late, hlate, h⟩ := bind_eq_ok_iff.1 h
          obtain rfl : false = late := Except.ok.inj hlate
          obtain ⟨rest, hrest, h⟩ := bind_eq_ok_iff.1 h
          exact ⟨false, rest, hrest, by simp, Except.ok.inj h⟩
        | some p =>
          obtain ⟨q, hq, h⟩ := bind_eq_ok_iff.1 h
          obtain ⟨late, hlate, h⟩ := bind_eq_ok_iff.1 h
          obtain rfl : Decidable.decide (p < q) = late := Except.ok.inj hlate
          obtain ⟨rest, hrest, h⟩ := bind_eq_ok_iff.1 h
          obtain ⟨m, hm⟩ := Trail.exists_mark_neg hl
          obtain rfl := Trail.positionOf_eq_ok hq hm
          refine ⟨Decidable.decide (p < m.position), rest, hrest, ?_, Except.ok.inj h⟩
          rw [Trail.place_eq hm]
          simp
      cases late with
      | true =>
        change k ∈ rest ↔ _
        rw [ih hrest k, List.mem_cons, hneg]
        constructor
        · exact fun hk => ⟨Or.inr hk.1, hk.2⟩
        · rintro ⟨rfl | hk, hlk⟩
          · exact absurd (hlate.2 (by simpa using hlk.2)) (by simp)
          · exact ⟨hk, hlk⟩
      | false =>
        change k ∈ -l :: rest ↔ _
        rw [List.mem_cons, ih hrest k, List.mem_cons, hneg]
        constructor
        · rintro (rfl | hk)
          · exact ⟨Or.inl rfl, hl, by simpa using hlate.1 rfl⟩
          · exact ⟨Or.inr hk.1, hk.2⟩
        · rintro ⟨rfl | hk, hlk⟩
          · exact Or.inl rfl
          · exact Or.inr ⟨hk, hlk⟩
    · next hl =>
      rw [ih h k, List.mem_cons, hneg]
      constructor
      · exact fun hk => ⟨Or.inr hk.1, hk.2⟩
      · rintro ⟨rfl | hk, hlk⟩
        · exact absurd hlk.1 hl
        · exact ⟨hk, hlk⟩

/-- What the explanation of a forced literal tells. -/
structure ExplainsForced (t : Trail) (c : Constraint) (l : Literal) (why : List Literal) : Prop where
  member : ∀ k ∈ why, -k ∈ c.literals ∧ t.falseBefore (t.place l.var) (-k) = true
  complete : ∀ k ∈ c.literals, t.falseBefore (t.place l.var) k = true → -k ∈ why

/-- What the explanation of a violated constraint tells. -/
structure ExplainsViolated (t : Trail) (c : Constraint) (why : List Literal) : Prop where
  member : ∀ k ∈ why, -k ∈ c.literals ∧ t.holds k = true
  complete : ∀ k ∈ c.literals, t.holds (-k) = true → -k ∈ why

theorem explain_forced (ht : t.Valid) (hc : c.Valid) (hf : Forces t c l) (hl : t.holds l = true)
    (h : c.explain t (some l) = .ok why) : ExplainsForced t c l why := by
  have hlin : l ∈ c.literals := mem_literals.2 (Or.inl hf.watched)
  have hother : ∀ k, t.falseBefore (t.place l.var) k = true → k ≠ l := by
    rintro k hk rfl
    simp [Trail.falseBefore, ht.consistent hl] at hk
  -- in a clause the explanation consists of all other literals
  have hclause : c.degree = 1 → (∀ k, k ∈ why ↔ -k ∈ c.literals ∧ -k ≠ l) →
      ExplainsForced t c l why := by
    intro hd hwhy
    refine ⟨fun k hk => ?_, fun k hk hkf => ?_⟩
    · obtain ⟨hin, hne⟩ := (hwhy k).1 hk
      exact ⟨hin, hf.falseBefore_of_clause ht hd hin hne hl⟩
    · exact (hwhy (-k)).2 (by simpa using ⟨hk, hother k hkf⟩)
  cases c with
  | binary a b =>
    have hab : a ≠ b := by simpa [literals] using hc.nodup
    obtain ⟨m, hm, h⟩ := bind_eq_ok_iff.1 h
    obtain rfl : [-m] = why := Except.ok.inj h
    refine hclause rfl fun k => ?_
    have hkm : k = -m ↔ -k = m :=
      ⟨fun e => by rw [e, Literal.neg_neg], fun e => by rw [← e, Literal.neg_neg]⟩
    rw [List.mem_singleton, hkm]
    simp only [literals, List.mem_cons, List.not_mem_nil, or_false]
    rcases other_eq_ok hm with ⟨rfl, rfl⟩ | ⟨rfl, rfl⟩
    · exact ⟨fun e => ⟨Or.inr e, e ▸ hab.symm⟩, fun e => e.1.resolve_left e.2⟩
    · exact ⟨fun e => ⟨Or.inl e, e ▸ hab⟩, fun e => e.1.resolve_right e.2⟩
  | watched hd tl rest =>
    obtain ⟨hmem, -⟩ := negatedOthers_eq_ok h
    refine hclause rfl fun k => ?_
    rw [hmem]
    simp [literals]
  | atLeast d watch rest =>
    obtain ⟨p, hp, h⟩ := bind_eq_ok_iff.1 h
    obtain ⟨m, hm⟩ := Trail.exists_mark hl
    obtain rfl := Trail.positionOf_eq_ok hp hm
    have hbefore : negatedBefore t (some m.position) (watch ++ rest) = .ok why := h
    have hmem := negatedBefore_eq_ok hbefore
    have hplace := Trail.place_eq hm
    refine ⟨fun k hk => ?_, fun k hk hkf => ?_⟩
    · obtain ⟨hin, hholds, hle⟩ := (hmem k).1 hk
      obtain ⟨n, hn, hneg⟩ := ht.holds_iff.1 hholds
      have hle := hle m.position rfl
      rw [Trail.place_eq hn] at hle
      refine ⟨hin, (falseBefore_iff ht).2 ⟨n, hn, by simpa using hneg, ?_⟩⟩
      rw [hplace]
      refine Nat.lt_of_le_of_ne hle fun heq => ?_
      -- two literals at one place are the same
      have hv : k.var = l.var := ht.mark_ext hn hm heq
      have hkl : -k = l := hc.eq_of_var_eq hin hlin hv
      rw [← hkl, ht.consistent hholds] at hl
      exact absurd hl (by simp)
    · obtain ⟨n, hn, hneg, hlt⟩ := (falseBefore_iff ht).1 hkf
      refine (hmem (-k)).2 ⟨by simpa [literals] using hk, ht.holds_neg_iff.2 ⟨n, hn, hneg⟩, ?_⟩
      intro p hp
      obtain rfl : m.position = p := Option.some.inj hp
      rw [Literal.neg_var, Trail.place_eq hn]
      omega

theorem explain_violated (h : c.explain t none = .ok why) (hv : Violated t c) :
    ExplainsViolated t c why := by
  have hclause : (∀ k, k ∈ why ↔ -k ∈ c.literals ∧ t.holds k = true) → ExplainsViolated t c why :=
    fun hmem => ⟨fun k => (hmem k).1, fun k hk hkf => (hmem (-k)).2 (by simpa using ⟨hk, hkf⟩)⟩
  cases c with
  | binary a b =>
    obtain ⟨hmem, hfalse⟩ := negatedOthers_eq_ok h
    refine hclause fun k => ?_
    rw [hmem]
    exact ⟨fun hk => ⟨hk.1, by simpa using hfalse _ hk.1 (by simp)⟩, fun hk => ⟨hk.1, by simp⟩⟩
  | watched hd tl rest =>
    obtain ⟨hmem, hfalse⟩ := negatedOthers_eq_ok h
    refine hclause fun k => ?_
    rw [hmem]
    exact ⟨fun hk => ⟨hk.1, by simpa using hfalse _ hk.1 (by simp)⟩, fun hk => ⟨hk.1, by simp⟩⟩
  | atLeast d watch rest =>
    refine hclause fun k => ?_
    have hbefore : negatedBefore t none (watch ++ rest) = .ok why := h
    rw [negatedBefore_eq_ok hbefore]
    simp [literals]

end Constraint
end Cdcl
