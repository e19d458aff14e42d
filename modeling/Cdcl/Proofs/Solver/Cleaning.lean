import Cdcl.Proofs.Constraint.Lifetime
import Cdcl.Proofs.Solver.Changes
import Cdcl.Solver.Cleaning

/-!
# Removing constraints keeps the formula

`reduce` only removes learnt clauses, and `isLocked` tells that they are no reasons. `simplify`
removes constraints that the literals fixed at level 0 make true; it forgets them as reasons first.
-/

namespace Cdcl.Solver
set_option autoImplicit false

variable {s s' : Solver} {F : Formula} {n : Nat} {ref : ClauseRef} {refs : List ClauseRef}
  {e : Stored} {ls : List Literal} {t t' : Trail} {rest : List (ClauseRef × Stored)}

/-! ## Activities -/

/-- At most the activities of clauses differ. -/
def Bumps (s s' : Solver) : Prop :=
  ∃ store clauseIncrement, s.store.Same store ∧
    s' = { s with kernel := { s.kernel with store }, clauseIncrement }

theorem Bumps.refl (s : Solver) : Bumps s s := ⟨s.store, s.clauseIncrement, Store.Same.refl _, rfl⟩

theorem Bumps.trans {s'' : Solver} (h : Bumps s s') (h' : Bumps s' s'') : Bumps s s'' := by
  obtain ⟨store, inc, hs, rfl⟩ := h
  obtain ⟨store', inc', hs', rfl⟩ := h'
  exact ⟨store', inc', hs.trans hs', rfl⟩

theorem Bumps.keeps (hb : Bumps s s') (h : s.Keeps F) : s'.Keeps F := by
  obtain ⟨store, inc, hs, rfl⟩ := hb
  have hkeeps : Keeps { s with kernel := { s.kernel with store } } F :=
    h.follow (Kernel.Follows.same hs) h.covers
  exact hkeeps.of_eq rfl rfl rfl rfl rfl rfl rfl hkeeps.calm

section
variable (hb : Bumps s s')
include hb

theorem Bumps.same : s.store.Same s'.store := by
  obtain ⟨store, inc, hs, rfl⟩ := hb
  exact hs

theorem Bumps.firm (hk : s.kernel.Firm n) : s'.kernel.Firm n := by
  obtain ⟨store, inc, hs, rfl⟩ := hb
  exact hk.same hs

theorem Bumps.trail : s'.trail = s.trail := by
  obtain ⟨store, inc, hs, rfl⟩ := hb
  rfl

theorem Bumps.learnts : s'.learnts = s.learnts := by
  obtain ⟨store, inc, hs, rfl⟩ := hb
  rfl

theorem Bumps.certificate : s'.certificate = s.certificate := by
  obtain ⟨store, inc, hs, rfl⟩ := hb
  rfl

end

theorem same_put_activity {store : Store} {activity : Float} (he : store.get? ref = some e) :
    store.Same (store.put ref { e with activity }) := Store.Same.put he rfl

theorem same_rescaleClauses {store : Store} : store.Same (rescaleClauses store refs) := by
  induction refs generalizing store with
  | nil => exact Store.Same.refl store
  | cons ref refs ih =>
    rw [rescaleClauses]
    split
    · next e he => exact (same_put_activity he).trans ih
    · exact ih

theorem bumpClause_eq_ok (h : s.bumpClause ref = .ok s') : Bumps s s' := by
  obtain ⟨e, he, h⟩ := bind_eq_ok_iff.1 h
  rw [Store.get_eq_ok] at he
  dsimp only at h
  split at h
  · obtain rfl := Except.ok.inj h
    exact ⟨_, _, (same_put_activity he).trans same_rescaleClauses, rfl⟩
  · obtain rfl := Except.ok.inj h
    exact ⟨_, _, same_put_activity he, rfl⟩

theorem bumpLearnts_eq_ok (h : s.bumpLearnts refs = .ok s') : Bumps s s' := by
  induction refs generalizing s with
  | nil =>
    obtain rfl := Except.ok.inj h
    exact Bumps.refl s
  | cons ref refs ih =>
    obtain ⟨e, he, h⟩ := bind_eq_ok_iff.1 h
    split at h
    · obtain ⟨s₁, hs₁, h⟩ := bind_eq_ok_iff.1 h
      exact (bumpClause_eq_ok hs₁).trans (ih h)
    · exact ih h

/-! ## Removing learnt clauses -/

theorem entriesOf_eq_ok {store : Store} (h : entriesOf store refs = .ok rest) :
    rest.map Prod.fst = refs ∧ ∀ x ∈ rest, store.get? x.1 = some x.2 := by
  induction refs generalizing rest with
  | nil =>
    obtain rfl := Except.ok.inj h
    exact ⟨rfl, by simp⟩
  | cons ref refs ih =>
    obtain ⟨e, he, h⟩ := bind_eq_ok_iff.1 h
    obtain ⟨others, hothers, h⟩ := bind_eq_ok_iff.1 h
    obtain rfl := Except.ok.inj h
    obtain ⟨hrefs, hall⟩ := ih hothers
    exact ⟨by rw [List.map_cons, hrefs], List.forall_mem_cons.2 ⟨Store.get_eq_ok.1 he, hall⟩⟩

theorem not_reason_of_isLocked (hk : s.kernel.Sound) (he : s.store.get? ref = some e)
    (hlocked : e.constraint.isLocked ref s.trail = .ok false) :
    ∀ v m, s.trail.mark? v = some m → m.reason ≠ some ref := by
  intro v m hm hreason
  obtain ⟨e', he', hforces⟩ := hk.reasons hm hreason
  obtain rfl := Option.some.inj (he.symm.trans he')
  refine Constraint.isLocked_eq_ok hlocked ⟨v, m.negative⟩ hforces.watched (Trail.holds_mk hm) ?_
  exact (Trail.reasonOf_eq hm).trans hreason

/-- The trail is the same, and whatever is a reason stays stored as it is. -/
structure Spares (s s' : Solver) : Prop where
  trail : s'.trail = s.trail
  stored : ∀ v m c, s.trail.mark? v = some m → m.reason = some c →
    s'.store.get? c = s.store.get? c

theorem Spares.refl (s : Solver) : s.Spares s := ⟨rfl, fun _ _ _ _ _ => rfl⟩

theorem Spares.trans {s'' : Solver} (h : s.Spares s') (h' : s'.Spares s'') : s.Spares s'' where
  trail := h'.trail.trans h.trail
  stored v m c hm hr := (h'.stored v m c (h.trail ▸ hm) hr).trans (h.stored v m c hm hr)

/-- The learnt clauses kept so far and those of the rest are listed. -/
structure Thins (s : Solver) (F : Formula) (n : Nat) (rest : List (ClauseRef × Stored)) : Prop where
  keeps : s.Keeps F
  firm : s.kernel.Firm n
  lists : s.store.Lists (s.learnts ++ rest.map Prod.fst)
  stored : ∀ x ∈ rest, s.store.get? x.1 = some x.2

theorem Thins.keep (h : s.Thins F n ((ref, e) :: rest)) : (s.keepLearnt ref).Thins F n rest where
  keeps := h.keeps.of_eq rfl rfl rfl rfl rfl rfl rfl h.keeps.calm
  firm := h.firm
  lists := by
    have hl := h.lists
    rw [List.map_cons] at hl
    change s.store.Lists (s.learnts ++ [ref] ++ rest.map Prod.fst)
    rwa [List.append_assoc, List.singleton_append]
  stored := (List.forall_mem_cons.1 h.stored).2

/-- It may be stopped anywhere. -/
theorem Thins.take (h : s.Thins F n rest) (m : Nat) : s.Thins F n (rest.take m) where
  keeps := h.keeps
  firm := h.firm
  lists := by
    have hsub := ((List.take_sublist m rest).map Prod.fst).append_left s.learnts
    exact ⟨hsub.nodup h.lists.nodup, fun r hr => h.lists.stored r (hsub.subset hr)⟩
  stored x hx := h.stored x (List.mem_of_mem_take hx)

theorem Thins.remove (h : s.Thins F n ((ref, e) :: rest))
    (hlocked : e.constraint.isLocked ref s.trail = .ok false)
    (hr : s.removeConstraint ref = .ok s') :
    s'.Thins F n rest ∧ s.Spares s' := by
  obtain ⟨he, hrest⟩ := List.forall_mem_cons.1 h.stored
  have hperm : (s.learnts ++ ref :: rest.map Prod.fst).Perm
      (ref :: (s.learnts ++ rest.map Prod.fst)) := List.perm_middle
  have hnodup := h.lists.nodup
  rw [List.map_cons, hperm.nodup_iff, List.nodup_cons] at hnodup
  obtain ⟨d, hd, hlearnt⟩ := h.lists.stored ref (by simp)
  obtain rfl := Option.some.inj (he.symm.trans hd)
  have hfree := not_reason_of_isLocked h.firm.sound he hlocked
  obtain ⟨hkeeps, hfirm, htrail, hlearnts, hget⟩ := h.keeps.removeConstraint h.firm
    (fun e' he' hgiven => by
      obtain rfl := Option.some.inj (he.symm.trans he')
      exact absurd (hgiven.symm.trans hlearnt) (by simp)) hfree hr
  have hkeep : ∀ {r d}, r ≠ ref → s.store.get? r = some d → s'.store.get? r = some d := by
    intro r d hne hr
    rw [hget, if_neg hne, hr]
  refine ⟨⟨hkeeps, hfirm, hlearnts ▸ ⟨hnodup.2, fun r hr => ?_⟩, fun y hy => ?_⟩, htrail,
    fun v m c hm hreason => ?_⟩
  · obtain ⟨d, hd, hlearnt⟩ := h.lists.stored r (hperm.mem_iff.2 (List.mem_cons_of_mem _ hr))
    exact ⟨d, hkeep (fun heq => hnodup.1 (heq ▸ hr)) hd, hlearnt⟩
  · exact hkeep (fun heq => hnodup.1 (List.mem_append_right _ (heq ▸ List.mem_map_of_mem hy)))
      (hrest y hy)
  · rw [hget, if_neg]
    rintro rfl
    exact hfree v m hm hreason

/-- The next clause joins the kept ones, or it is not locked and removed. -/
theorem removeInactive_cons {extra : Float} {quota : Nat}
    (hr : s.removeInactive extra quota ((ref, e) :: rest) = .ok s') :
    (s.keepLearnt ref).removeInactive extra (quota - 1) rest = .ok s' ∨
      (e.constraint.isLocked ref s.trail = .ok false ∧ ∃ s₁, s.removeConstraint ref = .ok s₁ ∧
        s₁.removeInactive extra (quota - 1) rest = .ok s') := by
  rw [removeInactive] at hr
  split at hr
  · exact Or.inl hr
  · obtain ⟨locked, hlocked, hr⟩ := bind_eq_ok_iff.1 hr
    cases locked with
    | true => exact Or.inl hr
    | false =>
      dsimp only [bind, Except.bind] at hr
      split at hr
      · obtain ⟨s₁, hs₁, hr⟩ := bind_eq_ok_iff.1 hr
        exact Or.inr ⟨hlocked, s₁, hs₁, hr⟩
      · exact Or.inl hr

/-- One after the other, the clauses of the rest join the kept ones or are removed. -/
theorem removeInactive_eq_ok {extra : Float} {quota : Nat} (h : s.Thins F n rest)
    (hr : s.removeInactive extra quota rest = .ok s') : s'.Thins F n [] ∧ s.Spares s' := by
  induction rest generalizing s quota with
  | nil =>
    obtain rfl := Except.ok.inj hr
    exact ⟨h, .refl s⟩
  | cons x rest ih =>
    obtain ⟨ref, e⟩ := x
    rcases removeInactive_cons hr with hr | ⟨hunlocked, s₁, hs₁, hr⟩
    · obtain ⟨h', hspares⟩ := ih (s := s.keepLearnt ref) h.keep hr
      exact ⟨h', hspares.trail, hspares.stored⟩
    · obtain ⟨h₁, hspares⟩ := h.remove hunlocked hs₁
      obtain ⟨h', hspares'⟩ := ih h₁ hr
      exact ⟨h', hspares.trans hspares'⟩

/-- Thinning out starts with no clause kept, and any order will do. -/
theorem Keeps.thins {order : ClauseRef × Stored → ClauseRef × Stored → Bool} (h : s.Keeps F)
    (hk : s.kernel.Firm n) (hl : s.store.Lists s.learnts)
    (hrest : entriesOf s.store s.learnts = .ok rest) :
    Thins { s with learnts := [] } F n (rest.mergeSort order) := by
  obtain ⟨hrefs, hall⟩ := entriesOf_eq_ok hrest
  have hperm := List.mergeSort_perm rest order
  have hfst := hperm.map Prod.fst
  rw [hrefs] at hfst
  exact ⟨h.of_eq rfl rfl rfl rfl rfl rfl rfl h.calm, hk,
    ⟨hfst.nodup_iff.2 hl.nodup, fun r hr => hl.stored r (hfst.mem_iff.1 hr)⟩,
    fun x hx => hall x (hperm.mem_iff.1 hx)⟩

theorem Keeps.reduce (h : s.Keeps F) (hk : s.kernel.Firm n) (hl : s.store.Lists s.learnts)
    (hr : s.reduce = .ok s') :
    s'.Keeps F ∧ s'.kernel.Firm n ∧ s'.store.Lists s'.learnts ∧ s.Spares s' := by
  obtain ⟨entries, hentries, hr⟩ := bind_eq_ok_iff.1 hr
  obtain ⟨s₁, hs₁, hr⟩ := bind_eq_ok_iff.1 hr
  obtain rfl := Except.ok.inj hr
  obtain ⟨h₁, hspares⟩ := removeInactive_eq_ok (h.thins hk hl hentries) hs₁
  have hl₁ := h₁.lists
  rw [List.map_nil, List.append_nil] at hl₁
  exact ⟨h₁.keeps.of_eq rfl rfl rfl rfl rfl rfl rfl (calm_push h₁.keeps.calm (by simp)), h₁.firm, hl₁,
    hspares.trail, hspares.stored⟩

/-! ## Removing constraints that hold for good -/

theorem redundant_eq_ok {found : List (ClauseRef × Stored)} (h : redundant t rest = .ok found) :
    ∀ x ∈ found, x ∈ rest ∧
      x.2.constraint.degree ≤ x.2.constraint.literals.countP (Constraint.rooted t) := by
  induction rest generalizing found with
  | nil =>
    obtain rfl := Except.ok.inj h
    simp
  | cons y rest ih =>
    obtain ⟨ref, e⟩ := y
    obtain ⟨b, hb, h⟩ := bind_eq_ok_iff.1 h
    obtain ⟨others, hothers, h⟩ := bind_eq_ok_iff.1 h
    obtain rfl := Except.ok.inj h
    have hothers' := ih hothers
    intro x hx
    cases b with
    | false =>
      obtain ⟨hin, hle⟩ := hothers' x hx
      exact ⟨List.mem_cons_of_mem _ hin, hle⟩
    | true =>
      rcases List.mem_cons.1 hx with rfl | hx
      · exact ⟨List.mem_cons_self, Constraint.isRedundant_eq_ok hb⟩
      · obtain ⟨hin, hle⟩ := hothers' x hx
        exact ⟨List.mem_cons_of_mem _ hin, hle⟩

theorem holds_of_rooted {c : Constraint} {a : Assignment} (ha : a.RespectsRoot t)
    (h : c.degree ≤ c.literals.countP (Constraint.rooted t)) : c.demand.Holds a := by
  refine Nat.le_trans h (List.countP_mono_left fun l _ hl => ?_)
  unfold Constraint.rooted at hl
  rw [Bool.and_eq_true, beq_iff_eq] at hl
  exact ha l hl.1 hl.2

theorem rooted_forgets (h : t.Forgets t') : Constraint.rooted t' = Constraint.rooted t := by
  funext l
  unfold Constraint.rooted
  rw [h.holds_eq, h.levelOf_eq]

theorem clearReasons_eq_ok (h : clearReasons ref ls t = .ok t') :
    t.Forgets t' ∧ ∀ l ∈ ls, t'.reasonOf l.var ≠ some ref := by
  induction ls generalizing t with
  | nil =>
    obtain rfl := Except.ok.inj h
    exact ⟨Trail.Forgets.refl t, by simp⟩
  | cons l ls ih =>
    obtain ⟨t₁, ht₁, h⟩ : ∃ t₁,
        (if t.reasonOf l.var == some ref then t.clearReason l.var else .ok t) = .ok t₁ ∧
          clearReasons ref ls t₁ = .ok t' := by
      rw [clearReasons] at h
      split at h
      · next hc =>
        obtain ⟨t₁, ht₁, h⟩ := bind_eq_ok_iff.1 h
        exact ⟨t₁, by rw [if_pos hc, ht₁], h⟩
      · next hc => exact ⟨t, if_neg hc, h⟩
    obtain ⟨hforgets, hnone⟩ := ih h
    have hfirst : t.Forgets t₁ ∧ t₁.reasonOf l.var ≠ some ref := by
      split at ht₁
      · refine ⟨Trail.Forgets.of_clearReason ht₁, fun hreason => ?_⟩
        rw [(Trail.clearReason_eq_ok ht₁).2.1, if_pos rfl] at hreason
        exact absurd hreason (by simp)
      · next hne =>
        obtain rfl := Except.ok.inj ht₁
        exact ⟨Trail.Forgets.refl t, by simpa using hne⟩
    refine ⟨hfirst.1.trans hforgets, List.forall_mem_cons.2 ⟨fun hreason => ?_, hnone⟩⟩
    -- no reason comes back
    rcases hforgets.reasons l.var with hsame | ⟨-, hgone⟩
    · exact hfirst.2 (hsame.symm.trans hreason)
    · exact absurd (hgone.symm.trans hreason) (by simp)

theorem Keeps.forgets (h : s.Keeps F) (ht : s.trail.Forgets t) :
    Keeps { s with kernel := { s.kernel with trail := t } } F := by
  refine h.follow (Kernel.Follows.forgets ht) (h.covers.mono ht.vars fun v hv => ?_)
  cases hm : s.trail.mark? v with
  | none => rfl
  | some m =>
    obtain ⟨m', hm', -⟩ := ht.new hm
    exact absurd (hm'.symm.trans hv) (by simp)

/-- Those of the rest that are still stored hold at level 0. -/
structure Sheds (s : Solver) (F : Formula) (n : Nat) (rest : List (ClauseRef × Stored)) : Prop where
  keeps : s.Keeps F
  firm : s.kernel.Firm n
  rooted : ∀ x ∈ rest, (∀ e, s.store.get? x.1 = some e → e = x.2) ∧
    x.2.constraint.degree ≤ x.2.constraint.literals.countP (Constraint.rooted s.trail)

/-- It may be stopped anywhere. -/
theorem Sheds.take (h : s.Sheds F n rest) (m : Nat) : s.Sheds F n (rest.take m) :=
  ⟨h.keeps, h.firm, fun x hx => h.rooted x (List.mem_of_mem_take hx)⟩

/-- The next constraint is forgotten as a reason and removed. -/
theorem Sheds.remove (h : s.Sheds F n ((ref, e) :: rest))
    (ht : clearReasons ref e.constraint.literals s.trail = .ok t)
    (hr : removeConstraint { s with kernel := { s.kernel with trail := t } } ref = .ok s') :
    s'.Sheds F n rest ∧ s'.trail = t ∧ s'.learnts = s.learnts ∧
      ∀ r d, s'.store.get? r = some d → s.store.get? r = some d := by
  obtain ⟨⟨hsame, hle⟩, hrest⟩ := List.forall_mem_cons.1 h.rooted
  obtain ⟨hforgets, hnone⟩ := clearReasons_eq_ok ht
  have hk : Kernel.Firm { s.kernel with trail := t } n := h.firm.forgets hforgets
  obtain ⟨hkeeps, hfirm, htrail, hlearnts, hget⟩ := (h.keeps.forgets hforgets).removeConstraint hk
    (fun e' he' _ a ha => by
      obtain rfl := hsame e' he'
      refine holds_of_rooted ha ?_
      change _ ≤ e'.constraint.literals.countP (Constraint.rooted t)
      rw [rooted_forgets hforgets]
      exact hle)
    (fun v m hm hreason => by
      obtain ⟨e', he', hforces⟩ := hk.sound.reasons hm hreason
      obtain rfl := hsame e' he'
      refine hnone ⟨v, m.negative⟩ (Constraint.mem_literals.2 (Or.inl hforces.watched)) ?_
      exact (Trail.reasonOf_eq hm).trans hreason) hr
  have hold : ∀ r d, s'.store.get? r = some d → s.store.get? r = some d := by
    intro r d hr
    rw [hget] at hr
    split at hr
    · exact absurd hr (by simp)
    · exact hr
  refine ⟨⟨hkeeps, hfirm, fun y hy => ?_⟩, htrail, hlearnts, hold⟩
  obtain ⟨hsame', hle'⟩ := hrest y hy
  rw [htrail]
  change _ ∧ _ ≤ y.2.constraint.literals.countP (Constraint.rooted t)
  rw [rooted_forgets hforgets]
  exact ⟨fun d hd => hsame' d (hold _ d hd), hle'⟩

theorem removeRedundant_eq_ok (h : s.Sheds F n rest) (hr : s.removeRedundant rest = .ok s') :
    s'.Sheds F n [] ∧ s.trail.Forgets s'.trail ∧ s'.learnts = s.learnts ∧
      ∀ ref e, s'.store.get? ref = some e → s.store.get? ref = some e := by
  induction rest generalizing s with
  | nil =>
    obtain rfl := Except.ok.inj hr
    exact ⟨h, Trail.Forgets.refl _, rfl, fun _ _ he => he⟩
  | cons x rest ih =>
    obtain ⟨ref, e⟩ := x
    obtain ⟨t, ht, hr⟩ := bind_eq_ok_iff.1 hr
    obtain ⟨s₁, hs₁, hr⟩ := bind_eq_ok_iff.1 hr
    obtain ⟨h₁, htrail, hlearnts, hold⟩ := h.remove ht hs₁
    obtain ⟨h', hforgets', hlearnts', hold'⟩ := ih h₁ hr
    have hforgets : s.trail.Forgets s₁.trail := htrail ▸ (clearReasons_eq_ok ht).1
    exact ⟨h', hforgets.trans hforgets', hlearnts'.trans hlearnts,
      fun r d hd => hold r d (hold' r d hd)⟩

/-- What is found redundant may be removed. -/
theorem Keeps.sheds (h : s.Keeps F) (hk : s.kernel.Firm n)
    (hrest : redundant s.trail s.store.entries = .ok rest) : s.Sheds F n rest := by
  refine ⟨h, hk, fun x hx => ?_⟩
  obtain ⟨hin, hle⟩ := redundant_eq_ok hrest x hx
  exact ⟨fun e he => Option.some.inj (he.symm.trans (Store.mem_entries.1 hin)), hle⟩

theorem Keeps.simplify (h : s.Keeps F) (hk : s.kernel.Firm n) (hl : s.store.Lists s.learnts)
    (hr : s.simplify = .ok s') :
    s'.Keeps F ∧ s'.kernel.Firm n ∧ s'.store.Lists s'.learnts ∧ s.trail.Forgets s'.trail := by
  unfold Solver.simplify at hr
  split at hr
  · obtain rfl := Except.ok.inj hr
    exact ⟨h, hk, hl, Trail.Forgets.refl _⟩
  · obtain ⟨found, hfound, hr⟩ := bind_eq_ok_iff.1 hr
    obtain ⟨s₁, hs₁, hr⟩ := bind_eq_ok_iff.1 hr
    obtain rfl := Except.ok.inj hr
    obtain ⟨h₁, hforgets, hlearnts, hold⟩ := removeRedundant_eq_ok (h.sheds hk hfound) hs₁
    refine ⟨h₁.keeps.of_eq rfl rfl rfl rfl rfl rfl rfl (calm_push h₁.keeps.calm (by simp)), h₁.firm,
      ⟨?_, ?_⟩, hforgets⟩
    · exact (hlearnts ▸ hl.nodup).filter _
    · intro ref href
      obtain ⟨hin, hcontains⟩ := List.mem_filter.1 href
      obtain ⟨e, he⟩ := Option.isSome_iff_exists.1 hcontains
      obtain ⟨e', he', hlearnt⟩ := hl.stored ref (hlearnts ▸ hin)
      obtain rfl := Option.some.inj (he'.symm.trans (hold ref e he))
      exact ⟨e', he, hlearnt⟩

end Cdcl.Solver
