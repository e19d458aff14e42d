import Cdcl.Proofs.Constraint.Lifetime
import Cdcl.Proofs.Constraint.Reason
import Cdcl.Proofs.Intake

/-!
# What is read under a trail is there

Whatever a constraint or an intake reads under a valid trail is there as long as its literals are those
of known variables: reactions, explanations and intakes have results. A clause is only told of a
literal that it watches, and only asked to explain what it forced or why it is violated.
-/

namespace Cdcl
set_option autoImplicit false

namespace Trail

variable {t : Trail} {l : Literal} {v : Var} {m : Mark} {r : Option ClauseRef}

theorem requireVar_eq (h : t.Covers v) : t.requireVar v = .ok () :=
  require_eq_ok_iff.2 (by simp [VarMap.covers, h.levels, h.reasons, h.positions])

theorem Valid.isSatisfied (h : t.Valid) (hl : t.Names l) : t.isSatisfied l = .ok (t.holds l) :=
  LiteralMap.get_of_lt ((h.covers hl).truth l.negative)

theorem Valid.isFalsified (h : t.Valid) (hl : t.Names l) :
    t.isFalsified l = .ok (t.holds (-l)) :=
  h.isSatisfied (l := -l) hl

theorem Valid.isAssigned (h : t.Valid) (hl : t.Names l) :
    t.isAssigned l = .ok (t.mark? l.var).isSome := by
  unfold Trail.isAssigned
  rw [h.isSatisfied hl, h.isFalsified hl]
  cases hholds : t.holds l with
  | true =>
    obtain ⟨m, hm⟩ := exists_mark hholds
    rw [hm]
    rfl
  | false =>
    cases hfalse : t.holds (-l) with
    | true =>
      obtain ⟨m, hm⟩ := exists_mark_neg hfalse
      rw [hm]
      rfl
    | false =>
      rw [unassigned_iff.2 ⟨hholds, hfalse⟩]
      rfl

theorem Valid.positionOf (h : t.Valid) (hvars : t.vars < Var.signedLimit)
    (hm : t.mark? v = some m) : t.positionOf v = .ok m.position := by
  have hname : t.Names ⟨v, false⟩ := h.named hm
  have hsmall : v.id < Var.signedLimit := Nat.lt_of_le_of_lt hname.2 hvars
  have hpositive : v.positive = ⟨v, false⟩ := by
    unfold Var.positive Var.literal
    rw [Nat.mod_eq_of_lt hsmall]
  have hassigned : t.isAssigned v.positive = .ok true := by
    rw [hpositive, h.isAssigned hname, hm]
    rfl
  refine bind_eq_ok_iff.2 ⟨true, hassigned, bind_eq_ok_iff.2 ⟨(), rfl, ?_⟩⟩
  rw [(mark?_eq_some hm).2]
  exact VarMap.get_of_lt (h.covers hname).positions

theorem Valid.assign_of_none (h : t.Valid) (hl : t.Names l) (hnone : t.mark? l.var = none) :
    t.assign l r = .ok (some (t.push l r)) := by
  obtain ⟨hholds, hfalse⟩ := unassigned_iff.1 hnone
  unfold Trail.assign
  rw [h.isFalsified hl, h.isSatisfied hl, hholds, hfalse, requireVar_eq (h.covers hl)]
  rfl

theorem Valid.assign (h : t.Valid) (hl : t.Names l) : ∃ o, t.assign l r = .ok o := by
  unfold Trail.assign
  rw [h.isFalsified hl, h.isSatisfied hl, requireVar_eq (h.covers hl)]
  cases t.holds (-l) with
  | true => exact ⟨none, rfl⟩
  | false =>
    cases t.holds l with
    | true => exact ⟨some t, rfl⟩
    | false => exact ⟨some (t.push l r), rfl⟩

theorem Valid.decide (h : t.Valid) (hl : t.Names l) (hnone : t.mark? l.var = none) :
    t.decide l = .ok (t.openLevel.push l none) := by
  unfold Trail.decide
  rw [h.isAssigned hl, hnone, requireVar_eq (h.covers hl)]
  rfl

end Trail

namespace Constraint

variable {t : Trail} {c : Constraint} {l fals : Literal} {ls : List Literal} {ref : ClauseRef}
  (ht : t.Valid) (hls : ∀ l ∈ ls, t.Names l)
include ht hls

/-! ## Reactions -/

theorem splitAtOpen_succeeds : ∃ o, splitAtOpen t ls = .ok o := by
  induction ls with
  | nil => exact ⟨_, rfl⟩
  | cons l ls ih =>
    obtain ⟨hl, hls⟩ := List.forall_mem_cons.1 hls
    obtain ⟨o, ho⟩ := ih hls
    unfold splitAtOpen
    rw [ht.isFalsified hl, ho]
    cases t.holds (-l) with
    | false => exact ⟨_, rfl⟩
    | true =>
      cases o with
      | none => exact ⟨_, rfl⟩
      | some parts => exact ⟨_, rfl⟩

theorem someFalsified_succeeds : ∃ b, someFalsified t ls = .ok b := by
  induction ls with
  | nil => exact ⟨_, rfl⟩
  | cons l ls ih =>
    obtain ⟨hl, hls⟩ := List.forall_mem_cons.1 hls
    obtain ⟨b, hb⟩ := ih hls
    unfold someFalsified
    rw [ht.isFalsified hl, hb]
    cases t.holds (-l) <;> exact ⟨_, rfl⟩

theorem reactWatched_succeeds {head : Literal} (hhead : t.Names head) :
    ∃ r, reactWatched t head fals ls = .ok r := by
  obtain ⟨o, ho⟩ := splitAtOpen_succeeds ht hls
  unfold reactWatched
  rw [ht.isSatisfied hhead, ho]
  cases t.holds head with
  | true => exact ⟨_, rfl⟩
  | false =>
    cases o with
    | none => exact ⟨_, rfl⟩
    | some parts => exact ⟨_, rfl⟩

omit hls in
theorem react_succeeds (hc : ∀ l ∈ c.literals, t.Names l) (hin : fals ∈ c.watching) :
    ∃ r, c.react t fals = .ok r := by
  cases c with
  | binary a b =>
    have hfals : t.Names fals := hc fals hin
    obtain ⟨m, hm⟩ : ∃ m, other a b fals = .ok m := by
      unfold other
      rcases List.mem_cons.1 hin with rfl | hin
      · exact ⟨b, if_pos rfl⟩
      · obtain rfl := List.mem_singleton.1 hin
        by_cases hab : a = fals
        · exact ⟨fals, if_pos hab⟩
        · exact ⟨a, by rw [if_neg hab, if_pos rfl]⟩
    exact ⟨_, bind_eq_ok_iff.2 ⟨(), Trail.requireVar_eq (ht.covers hfals),
      bind_eq_ok_iff.2 ⟨m, hm, rfl⟩⟩⟩
  | watched hd tl rest =>
    have hrest : ∀ l ∈ rest, t.Names l := fun l hl => hc l (by simp [literals, hl])
    dsimp only [react]
    by_cases hh : hd = fals
    · rw [if_pos hh]
      exact reactWatched_succeeds ht hrest (hc tl (by simp [literals]))
    · have htl : tl = fals := by
        rcases List.mem_cons.1 hin with rfl | hin
        · exact absurd rfl hh
        · exact (List.mem_singleton.1 hin).symm
      rw [if_neg hh, if_pos htl]
      exact reactWatched_succeeds ht hrest (hc hd (by simp [literals]))
  | atLeast d watch rest =>
    have hin : fals ∈ watch := hin
    have hrest : ∀ l ∈ rest, t.Names l := fun l hl => hc l (List.mem_append_right _ hl)
    have hothers : ∀ l ∈ watch.filter (· != fals), t.Names l := fun l hl =>
      hc l (List.mem_append_left _ (List.mem_of_mem_filter hl))
    obtain ⟨o, ho⟩ := splitAtOpen_succeeds ht hrest
    obtain ⟨b, hb⟩ := someFalsified_succeeds ht hothers
    dsimp only [react]
    rw [List.contains_iff_mem.2 hin, ho]
    cases o with
    | some parts => exact ⟨_, rfl⟩
    | none => exact ⟨_, bind_eq_ok_iff.2 ⟨(), rfl, bind_eq_ok_iff.2 ⟨none, rfl,
        bind_eq_ok_iff.2 ⟨b, hb, rfl⟩⟩⟩⟩

/-! ## Explanations -/

theorem negatedOthers_succeeds {implied : Option Literal}
    (hfalse : ∀ l ∈ ls, some l ≠ implied → t.holds (-l) = true) :
    ∃ why, negatedOthers t implied ls = .ok why := by
  induction ls with
  | nil => exact ⟨_, rfl⟩
  | cons l ls ih =>
    obtain ⟨hl, hls⟩ := List.forall_mem_cons.1 hls
    obtain ⟨hlf, hfalse⟩ := List.forall_mem_cons.1 hfalse
    obtain ⟨why, hwhy⟩ := ih hls hfalse
    unfold negatedOthers
    split
    · exact ⟨why, hwhy⟩
    · next hne =>
      rw [ht.isFalsified hl, hlf hne, hwhy]
      exact ⟨_, rfl⟩

theorem negatedBefore_succeeds (limit : Option Nat) (hvars : t.vars < Var.signedLimit) :
    ∃ why, negatedBefore t limit ls = .ok why := by
  induction ls with
  | nil => exact ⟨_, rfl⟩
  | cons l ls ih =>
    obtain ⟨hl, hls⟩ := List.forall_mem_cons.1 hls
    obtain ⟨why, hwhy⟩ := ih hls
    unfold negatedBefore
    rw [ht.isFalsified hl, hwhy]
    cases hf : t.holds (-l) with
    | false => exact ⟨_, rfl⟩
    | true =>
      cases limit with
      | none => exact ⟨_, rfl⟩
      | some p =>
        obtain ⟨m, hm⟩ := Trail.exists_mark_neg hf
        rw [ht.positionOf hvars hm]
        exact ⟨_, rfl⟩

omit hls in
theorem explain_forced_succeeds (hc : ∀ l ∈ c.literals, t.Names l)
    (hvars : t.vars < Var.signedLimit) (hf : Forces t c l) (hl : t.holds l = true) :
    ∃ why, c.explain t (some l) = .ok why := by
  have hothers : c.degree = 1 → ∀ k ∈ c.literals, some k ≠ some l → t.holds (-k) = true := by
    intro hd k hk hne
    have hbefore := hf.falseBefore_of_clause ht hd hk (fun e => hne (congrArg some e)) hl
    exact (Bool.and_eq_true _ _ ▸ hbefore).1
  cases c with
  | binary a b =>
    obtain ⟨m, hm⟩ : ∃ m, other a b l = .ok m := by
      unfold other
      rcases List.mem_cons.1 hf.watched with rfl | hin
      · exact ⟨b, if_pos rfl⟩
      · obtain rfl := List.mem_singleton.1 hin
        by_cases hab : a = l
        · exact ⟨l, if_pos hab⟩
        · exact ⟨a, by rw [if_neg hab, if_pos rfl]⟩
    exact ⟨_, bind_eq_ok_iff.2 ⟨m, hm, rfl⟩⟩
  | watched hd tl rest => exact negatedOthers_succeeds ht hc (hothers rfl)
  | atLeast d watch rest =>
    obtain ⟨m, hm⟩ := Trail.exists_mark hl
    obtain ⟨why, hwhy⟩ := negatedBefore_succeeds ht hc (some m.position) hvars
    exact ⟨why, bind_eq_ok_iff.2 ⟨m.position, ht.positionOf hvars hm, hwhy⟩⟩

omit hls in
theorem explain_violated_succeeds (hc : ∀ l ∈ c.literals, t.Names l)
    (hvars : t.vars < Var.signedLimit) (hv : Violated t c) :
    ∃ why, c.explain t none = .ok why := by
  cases c with
  | binary a b => exact negatedOthers_succeeds ht hc fun k hk _ => hv.falsified rfl hk
  | watched hd tl rest => exact negatedOthers_succeeds ht hc fun k hk _ => hv.falsified rfl hk
  | atLeast d watch rest => exact negatedBefore_succeeds ht hc none hvars

/-! ## Making constraints -/

omit ht hls in
theorem clause_succeeds (hlen : 2 ≤ ls.length) (hdistinct : (ls.map Literal.var).Nodup) :
    ∃ c, clause ls = .ok c := by
  match ls, hlen with
  | [l, m], _ =>
    have hne : l.var ≠ m.var := by simpa using hdistinct
    exact ⟨_, bind_eq_ok_iff.2 ⟨(), require_eq_ok_iff.2 (by simpa [Literal.sameVar] using hne), rfl⟩⟩
  | _ :: _ :: _ :: _, _ => exact ⟨_, rfl⟩

omit ht hls in
theorem atLeastOf_succeeds {degree : Nat} (hpos : 1 ≤ degree) (hlt : degree < ls.length) :
    ∃ c, atLeastOf ls degree = .ok c :=
  ⟨_, bind_eq_ok_iff.2 ⟨(), require_eq_ok_iff.2 (by simp [hpos, hlt]), rfl⟩⟩

/-! ## Redundant and locked constraints -/

theorem fixedCount_succeeds : ∃ n, fixedCount t ls = .ok n := by
  induction ls with
  | nil => exact ⟨_, rfl⟩
  | cons l ls ih =>
    obtain ⟨hl, hls⟩ := List.forall_mem_cons.1 hls
    obtain ⟨n, hn⟩ := ih hls
    unfold fixedCount fixed
    rw [ht.isSatisfied hl, hn]
    exact ⟨_, rfl⟩

theorem someFixed_succeeds : ∃ b, someFixed t ls = .ok b := by
  induction ls with
  | nil => exact ⟨_, rfl⟩
  | cons l ls ih =>
    obtain ⟨hl, hls⟩ := List.forall_mem_cons.1 hls
    obtain ⟨b, hb⟩ := ih hls
    refine ⟨if rooted t l then true else b, bind_eq_ok_iff.2 ⟨rooted t l, ?_, ?_⟩⟩
    · exact bind_eq_ok_iff.2 ⟨_, ht.isSatisfied hl, rfl⟩
    · cases rooted t l
      · exact hb
      · rfl

omit hls in
theorem isRedundant_succeeds (hc : ∀ l ∈ c.literals, t.Names l) :
    ∃ b, c.isRedundant t = .ok b := by
  cases c with
  | binary a b => exact someFixed_succeeds ht hc
  | watched hd tl rest => exact someFixed_succeeds ht hc
  | atLeast d watch rest =>
    obtain ⟨n, hn⟩ := fixedCount_succeeds ht hc
    exact ⟨_, bind_eq_ok_iff.2 ⟨n, hn, rfl⟩⟩

theorem someForced_succeeds : ∃ b, someForced ref t ls = .ok b := by
  induction ls with
  | nil => exact ⟨_, rfl⟩
  | cons l ls ih =>
    obtain ⟨hl, hls⟩ := List.forall_mem_cons.1 hls
    obtain ⟨b, hb⟩ := ih hls
    unfold someForced
    rw [ht.isSatisfied hl, hb]
    by_cases hforced : (t.holds l && t.reasonOf l.var == some ref) = true
    · exact ⟨true, bind_eq_ok_iff.2 ⟨_, rfl, if_pos hforced⟩⟩
    · exact ⟨b, bind_eq_ok_iff.2 ⟨_, rfl, if_neg hforced⟩⟩

omit hls in
theorem isLocked_succeeds (hc : ∀ l ∈ c.literals, t.Names l) :
    ∃ b, c.isLocked ref t = .ok b :=
  someForced_succeeds ht fun l hl => hc l (mem_literals.2 (Or.inl hl))

end Constraint

/-! ## Intakes -/

namespace Intake

variable {t : Trail} {l : Literal} {ls : List Literal}

section
variable (ht : t.Valid) (hls : ∀ l ∈ ls, t.Names l)
include ht hls

theorem someSatisfied_succeeds : ∃ b, someSatisfied t ls = .ok b := by
  induction ls with
  | nil => exact ⟨_, rfl⟩
  | cons l ls ih =>
    obtain ⟨hl, hls⟩ := List.forall_mem_cons.1 hls
    obtain ⟨b, hb⟩ := ih hls
    unfold someSatisfied
    rw [ht.isSatisfied hl, hb]
    cases t.holds l <;> exact ⟨_, rfl⟩

theorem dropFalsified_succeeds : ∃ rest, dropFalsified t ls = .ok rest := by
  induction ls with
  | nil => exact ⟨_, rfl⟩
  | cons l ls ih =>
    obtain ⟨hl, hls⟩ := List.forall_mem_cons.1 hls
    obtain ⟨rest, hrest⟩ := ih hls
    unfold dropFalsified
    rw [ht.isFalsified hl, hrest]
    exact ⟨_, rfl⟩

theorem clause_succeeds : ∃ r, clause ls t = .ok r := by
  obtain ⟨b, hb⟩ := someSatisfied_succeeds ht hls
  obtain ⟨rest, hrest⟩ := dropFalsified_succeeds ht hls
  unfold clause
  rw [hb, hrest]
  cases b <;> exact ⟨_, rfl⟩

/-- The degree is lowered at most once for each literal. -/
theorem countSatisfied_succeeds {d : Int} (hd : (ls.length : Int) - Word.addressable ≤ d) :
    ∃ r, countSatisfied t d ls = .ok r := by
  induction ls generalizing d with
  | nil => exact ⟨_, rfl⟩
  | cons l ls ih =>
    obtain ⟨hl, hls⟩ := List.forall_mem_cons.1 hls
    rw [List.length_cons] at hd
    unfold countSatisfied
    rw [ht.isSatisfied hl]
    cases t.holds l with
    | true =>
      have hlow : lower d = .ok (d - 1) := if_neg (by omega)
      obtain ⟨r, hr⟩ := ih hls (d := d - 1) (by omega)
      exact ⟨r, bind_eq_ok_iff.2 ⟨true, rfl, bind_eq_ok_iff.2 ⟨d - 1, hlow, hr⟩⟩⟩
    | false =>
      obtain ⟨⟨d', rest⟩, hr⟩ := ih hls (d := d) (by omega)
      rw [ht.isFalsified hl, hr]
      exact ⟨_, rfl⟩

end

theorem cancelPairs_succeeds {d : Int} (kept : List Literal)
    (hd : (ls.length : Int) - Word.addressable ≤ d) : ∃ r, cancelPairs d kept ls = .ok r := by
  induction ls generalizing d kept with
  | nil =>
    unfold cancelPairs
    exact ⟨_, rfl⟩
  | cons l ls ih =>
    rw [List.length_cons] at hd
    cases kept with
    | nil =>
      rw [cancelPairs]
      exact ih [l] (by omega)
    | cons k kept =>
      rw [cancelPairs]
      split
      · have hlow : lower d = .ok (d - 1) := if_neg (by omega)
        obtain ⟨r, hr⟩ := ih (d := d - 1) kept (by omega)
        exact ⟨r, bind_eq_ok_iff.2 ⟨d - 1, hlow, hr⟩⟩
      · exact ih (l :: k :: kept) (by omega)

/-- The true literals and the unassigned ones are no more than all of them. -/
theorem countP_add_length_le (t : Trail) (ls : List Literal) :
    ls.countP t.holds + (Literal.canonical (ls.filter (isOpen t))).length ≤ ls.length := by
  have hcanonical : (Literal.canonical (ls.filter (isOpen t))).length ≤ ls.countP (isOpen t) := by
    rw [List.countP_eq_length_filter]
    exact (List.subperm_of_subset (Assignment.nodup_canonical _)
      fun _ => Literal.mem_canonical.1).length_le
  have hopen : ls.countP (isOpen t) ≤ ls.countP fun l => ¬ t.holds l := by
    refine List.countP_mono_left fun l _ hl => ?_
    rw [isOpen, Bool.and_eq_true] at hl
    simpa using hl.1
  have hall := List.length_eq_countP_add_countP t.holds (l := ls)
  omega

/-- At-least constraints are taken in if their literals fit into memory. -/
theorem atLeast_succeeds {degree : Nat} (ht : t.Valid) (hls : ∀ l ∈ ls, t.Names l)
    (hdegree : degree < Word.addressable) (hlen : ls.length < Word.addressable) :
    ∃ r, atLeast ls degree t = .ok r := by
  have hsigned := signedDegree_of_lt hdegree
  obtain ⟨⟨d₁, opened⟩, h₁⟩ :=
    countSatisfied_succeeds ht hls (d := signedDegree degree) (by rw [hsigned]; omega)
  obtain ⟨rfl, hcount⟩ := countSatisfied_eq_ok h₁
  have hparts := countP_add_length_le t ls
  obtain ⟨⟨d₂, kept⟩, h₂⟩ := cancelPairs_succeeds [] (d := d₁)
    (show ((Literal.canonical (ls.filter (isOpen t))).length : Int) - Word.addressable ≤ d₁ by omega)
  have hnames : ∀ l ∈ kept, t.Names l := by
    have hasc := Literal.ascending_canonical (ls.filter (isOpen t))
    obtain ⟨hmem, -⟩ := cancelPairs_eq_ok h₂ (by simpa using hasc) List.nodup_nil
    intro l hl
    have hin : l ∈ Literal.canonical (ls.filter (isOpen t)) := by simpa using hmem l hl
    exact hls l (List.mem_of_mem_filter (Literal.mem_canonical.1 hin))
  obtain ⟨form, hform⟩ := clause_succeeds ht hnames
  have hlast : ∃ r, classifyAtLeast d₂ kept t = .ok r := by
    unfold classifyAtLeast
    rw [hform]
    split
    · exact ⟨_, rfl⟩
    · split
      · exact ⟨_, rfl⟩
      · split
        · exact ⟨_, rfl⟩
        · split
          · cases form <;> exact ⟨_, rfl⟩
          · exact ⟨_, rfl⟩
  obtain ⟨r, hr⟩ := hlast
  exact ⟨r, bind_eq_ok_iff.2 ⟨_, h₁, bind_eq_ok_iff.2 ⟨_, h₂, hr⟩⟩⟩

/-- What is stored as an at-least constraint has more literals than have to hold. -/
theorem degree_lt_length {degree d : Nat} {rest : List Literal}
    (h : atLeast ls degree t = .ok (.ok (.atLeast rest d))) : 1 ≤ d ∧ d < rest.length := by
  obtain ⟨⟨d₁, opened⟩, -, h⟩ := bind_eq_ok_iff.1 h
  obtain ⟨⟨d₂, kept⟩, -, h⟩ := bind_eq_ok_iff.1 h
  unfold classifyAtLeast at h
  dsimp only at h
  split at h
  · simp at h
  split at h
  · simp at h
  split at h
  · simp at h
  split at h
  · obtain ⟨form, -, h⟩ := bind_eq_ok_iff.1 h
    split at h <;> simp at h
  · simp only [Except.ok.injEq, AtLeastForm.atLeast.injEq] at h
    obtain ⟨rfl, rfl⟩ := h
    omega

end Intake
end Cdcl
