import Cdcl.Proofs.Constraint.Lifetime
import Cdcl.Proofs.Kernel.Propagation
import Cdcl.Proofs.Progress.Reading

/-!
# Reasons

The reason of a true literal is stored, watches the literal and explains it by literals that come before
it on the trail (`Justifies`), so following reasons ends (`Justified.acyclic`). A violated constraint
is explained by true literals that contradict it (`Contradicts`). Both hold where the parts of a kernel
fit together, and so they do at every visit of a propagation (`Propagates.continues`).
-/

namespace Cdcl
set_option autoImplicit false

/-! ## The order on the trail -/

/-- Both literals are on the trail, the first one before the second. -/
def Trail.Before (t : Trail) (m l : Literal) : Prop :=
  ∃ i j : Nat, i < j ∧ t.literals[i]? = some m ∧ t.literals[j]? = some l

theorem Trail.Valid.before_iff {t : Trail} {m l : Literal} (ht : t.Valid) (hl : t.holds l = true) :
    t.Before m l ↔ t.holds m = true ∧ t.place m.var < t.place l.var := by
  obtain ⟨n, hn, hneg⟩ := ht.holds_iff.1 hl
  rw [Trail.place_eq hn]
  constructor
  · rintro ⟨i, j, hij, hi, hj⟩
    obtain ⟨n', hn', hneg', rfl⟩ := ht.marked hi
    obtain ⟨n'', hn'', -, rfl⟩ := ht.marked hj
    obtain rfl := Option.some.inj (hn.symm.trans hn'')
    exact ⟨Trail.holds_of_mark hn' hneg', (Trail.place_eq hn').symm ▸ hij⟩
  · rintro ⟨hm, hlt⟩
    obtain ⟨n', hn', hneg'⟩ := ht.holds_iff.1 hm
    rw [Trail.place_eq hn'] at hlt
    have hplaced := ht.placed hn'
    have hplaced' := ht.placed hn
    rw [hneg'] at hplaced
    rw [hneg] at hplaced'
    exact ⟨n'.position, n.position, hlt, hplaced, hplaced'⟩

namespace Constraint

variable {t : Trail} {c : Constraint} {l : Literal} {why : List Literal}

/-- The explanation of a literal consists of the earlier literals whose negations the constraint has,
whatever became false later. -/
theorem ExplainsForced.mem_iff (h : ExplainsForced t c l why) (ht : t.Valid)
    (hl : t.holds l = true) (m : Literal) : m ∈ why ↔ -m ∈ c.literals ∧ t.Before m l := by
  have hbefore : t.falseBefore (t.place l.var) (-m) = true ↔ t.Before m l := by
    rw [ht.before_iff hl, Trail.falseBefore, Literal.neg_neg, Literal.neg_var, Bool.and_eq_true,
      decide_eq_true_eq]
  constructor
  · intro hm
    obtain ⟨hin, hfalse⟩ := h.member m hm
    exact ⟨hin, hbefore.1 hfalse⟩
  · rintro ⟨hin, hm⟩
    have := h.complete (-m) hin (hbefore.2 hm)
    rwa [Literal.neg_neg] at this

theorem ExplainsViolated.mem_iff (h : ExplainsViolated t c why) (m : Literal) :
    m ∈ why ↔ -m ∈ c.literals ∧ t.holds m = true := by
  refine ⟨h.member m, fun ⟨hin, hm⟩ => ?_⟩
  have := h.complete (-m) hin (by rwa [Literal.neg_neg])
  rwa [Literal.neg_neg] at this

end Constraint

namespace Kernel

/-! ## Explanations -/

/-- The constraint is stored, watches the literal and is locked. It explains the literal by what its
false literals before this one leave no choice for: these are true, earlier and entail it. -/
structure Justifies (k : Kernel) (ref : ClauseRef) (l : Literal) (e : Stored)
    (why : List Literal) : Prop where
  stored : k.store.get? ref = some e
  watched : l ∈ e.constraint.watching
  locked : e.constraint.isLocked ref k.trail = .ok true
  explained : e.constraint.explain k.trail (some l) = .ok why
  member : ∀ m, m ∈ why ↔ -m ∈ e.constraint.literals ∧ k.trail.Before m l
  holds : ∀ m ∈ why, k.trail.holds m = true
  entails : ∀ a : Assignment, e.constraint.demand.Holds a → (∀ m ∈ why, a.makes m = true) →
    a.makes l = true

/-- The constraint is stored, and it explains its violation by the true literals whose negations it
has. Where these hold the constraint does not. -/
structure Contradicts (k : Kernel) (ref : ClauseRef) (e : Stored) (why : List Literal) : Prop where
  stored : k.store.get? ref = some e
  explained : e.constraint.explain k.trail none = .ok why
  member : ∀ m, m ∈ why ↔ -m ∈ e.constraint.literals ∧ k.trail.holds m = true
  contradicts : ∀ a : Assignment, (∀ m ∈ why, a.makes m = true) → ¬ e.constraint.demand.Holds a

/-- The first literal belongs to the explanation of the second one by its reason. -/
def Needs (k : Kernel) (m l : Literal) : Prop :=
  ∃ ref e why, k.trail.holds l = true ∧ k.trail.reasonOf l.var = some ref ∧
    k.store.get? ref = some e ∧ e.constraint.explain k.trail (some l) = .ok why ∧ m ∈ why

/-- Reasons justify their literals, and following them back ends. -/
structure Justified (k : Kernel) : Prop where
  reasons : ∀ l ref, k.trail.holds l = true → k.trail.reasonOf l.var = some ref →
    ∃ e why, k.Justifies ref l e why
  acyclic : WellFounded k.Needs

variable {k k₀ k' : Kernel} {ref : ClauseRef} {l m fals : Literal} {refs : List ClauseRef}

theorem Sound.justifies (h : k.Sound) (hvars : k.trail.vars < Var.signedLimit)
    (hl : k.trail.holds l = true) (hr : k.trail.reasonOf l.var = some ref) :
    ∃ e why, k.Justifies ref l e why := by
  obtain ⟨n, hn, hreason⟩ := h.trail.reasonOf_eq_some hr
  obtain ⟨n', hn', hneg⟩ := h.trail.holds_iff.1 hl
  obtain rfl := Option.some.inj (hn.symm.trans hn')
  obtain ⟨e, he, hforces⟩ := h.reasons hn hreason
  replace hforces : e.constraint.Forces k.trail l := by
    rw [hneg] at hforces
    exact hforces
  obtain ⟨locked, hlocked⟩ : ∃ b, e.constraint.isLocked ref k.trail = .ok b :=
    Constraint.isLocked_succeeds h.trail (h.named he)
  obtain ⟨why, hwhy⟩ :=
    Constraint.explain_forced_succeeds h.trail (h.named he) hvars hforces hl
  have hexplains := Constraint.explain_forced h.trail (h.shape he) hforces hl hwhy
  have hmember := hexplains.mem_iff h.trail hl
  refine ⟨e, why, he, hforces.watched, ?locked, hwhy, hmember, fun m hm => ?holds,
    fun a ha hall => ?entails⟩
  case locked =>
    cases locked with
    | true => exact hlocked
    | false => exact absurd hr (Constraint.isLocked_eq_ok hlocked l hforces.watched hl)
  case holds => exact ((h.trail.before_iff hl).1 ((hmember m).1 hm).2).1
  case entails =>
    exact hforces.makes h.trail hl ha fun u hu hfalse => hall _ (hexplains.complete u hu hfalse)

/-- What a literal needs comes before it. -/
theorem Sound.place_lt_of_needs (h : k.Sound) (hvars : k.trail.vars < Var.signedLimit)
    (hneeds : k.Needs m l) : k.trail.place m.var < k.trail.place l.var := by
  obtain ⟨ref, e, why, hl, hr, he, hwhy, hm⟩ := hneeds
  obtain ⟨e', why', hj⟩ := h.justifies hvars hl hr
  obtain rfl := Option.some.inj (he.symm.trans hj.stored)
  obtain rfl := Except.ok.inj (hwhy.symm.trans hj.explained)
  exact ((h.trail.before_iff hl).1 ((hj.member m).1 hm).2).2

theorem Sound.justified (h : k.Sound) (hvars : k.trail.vars < Var.signedLimit) : k.Justified where
  reasons _ _ := h.justifies hvars
  acyclic := Subrelation.wf (h.place_lt_of_needs hvars)
    (measure fun l : Literal => k.trail.place l.var).wf

theorem Clash.contradicts (h : k.Clash ref) (hvars : k.trail.vars < Var.signedLimit) :
    ∃ e why, k.Contradicts ref e why := by
  obtain ⟨e, he, hviolated, -⟩ := h.violated
  obtain ⟨why, hwhy⟩ :=
    Constraint.explain_violated_succeeds h.sound.trail (h.sound.named he) hvars hviolated
  have hexplains := Constraint.explain_violated hwhy hviolated
  exact ⟨e, why, he, hwhy, hexplains.mem_iff, fun a hall =>
    hviolated.not_holds fun u hu hfalse => hall _ (hexplains.complete u hu hfalse)⟩

/-- The parts of the second kernel fit together, and it has the variables of the first one. -/
structure Continues (k k' : Kernel) : Prop where
  sound : k'.Sound
  vars : k'.trail.vars = k.trail.vars

theorem Continues.justified (h : k.Continues k') (hvars : k.trail.vars < Var.signedLimit) :
    k'.Justified := h.sound.justified (h.vars.symm ▸ hvars)

/-! ## During a propagation -/

/-- The kernels that propagation goes through, with the false literal whose constraints are being visited
and those of them that are left. -/
inductive Propagates (k₀ : Kernel) : Literal → List ClauseRef → Kernel → Prop
  | start (fals : Literal) : Propagates k₀ fals [] k₀
  | take {fals l : Literal} {k : Kernel} {t : Trail} {list : Array ClauseRef} {w : Watches}
      (h : Propagates k₀ fals [] k) (hnext : k.trail.next = some (l, t))
      (hw : k.watches.take (-l) = .ok (list, w)) :
      Propagates k₀ (-l) list.toList
        { k with trail := t, watches := w, propagations := k.propagations + 1 }
  | visit {fals : Literal} {ref : ClauseRef} {refs : List ClauseRef} {k k' : Kernel}
      (h : Propagates k₀ fals (ref :: refs) k) (hv : k.visit ref fals = .ok (true, k')) :
      Propagates k₀ fals refs k'

/-- Before each visit, and between two literals, propagation is where it should be. -/
theorem Propagates.visiting (h : k₀.Propagates fals refs k) (hk : k₀.Ready) :
    k.trail.vars = k₀.trail.vars ∧ (k.Visiting fals refs ∨ refs = [] ∧ k.Ready) := by
  induction h with
  | start => exact ⟨rfl, Or.inr ⟨rfl, hk⟩⟩
  | take h hnext hw ih =>
    obtain ⟨hl, rfl⟩ := Trail.next_eq_some hnext
    have hready := ih.2.elim Visiting.ready And.right
    exact ⟨ih.1, Or.inl (hready.visiting hl hw)⟩
  | visit h hv ih =>
    rcases ih.2 with hvisiting | ⟨hnil, -⟩
    · obtain ⟨hext, -, -, hvisiting'⟩ := visit_eq_ok hvisiting hv
      exact ⟨hext.vars.trans ih.1, Or.inl hvisiting'⟩
    · exact absurd hnil (List.cons_ne_nil _ _)

theorem Propagates.continues (h : k₀.Propagates fals refs k) (hk : k₀.Ready) : k₀.Continues k := by
  obtain ⟨hvars, hvisiting | ⟨-, hready⟩⟩ := h.visiting hk
  · exact ⟨hvisiting.sound, hvars⟩
  · exact ⟨hready.sound, hvars⟩

theorem Propagates.continues_of_visit (h : k₀.Propagates fals (ref :: refs) k) (hk : k₀.Ready)
    (hv : k.visit ref fals = .ok (false, k')) : k₀.Continues k' := by
  obtain ⟨hvars, hvisiting | ⟨hnil, -⟩⟩ := h.visiting hk
  · obtain ⟨hext, -, -, hbroken⟩ := visit_eq_ok hvisiting hv
    exact ⟨hbroken.sound, hext.vars.trans hvars⟩
  · exact absurd hnil (List.cons_ne_nil _ _)

/-- How the propagation of a kernel ends: all lists are visited, or a constraint is found violated and
the queue is given up. -/
def Finishes (k₀ k' : Kernel) (fals : Literal) : Option ClauseRef → Prop
  | none => k₀.Propagates fals [] k'
  | some ref => ∃ refs k k₁ w, k₀.Propagates fals (ref :: refs) k ∧
      k.visit ref fals = .ok (false, k₁) ∧ k' = { k₁ with watches := w, trail := k₁.trail.flush }

theorem Propagates.of_visitAll {o : Option ClauseRef} (h : k₀.Propagates fals refs k)
    (hv : visitAll fals refs k = .ok (o, k')) : k₀.Finishes k' fals o := by
  induction refs generalizing k with
  | nil =>
    obtain ⟨rfl, rfl⟩ := Prod.mk.inj (Except.ok.inj hv)
    exact h
  | cons ref refs ih =>
    obtain ⟨⟨b, k₁⟩, hk₁, hv⟩ := bind_eq_ok_iff.1 hv
    cases b with
    | true => exact ih (h.visit hk₁) hv
    | false =>
      obtain ⟨w, -, hv⟩ := bind_eq_ok_iff.1 hv
      obtain ⟨rfl, rfl⟩ := Prod.mk.inj (Except.ok.inj hv)
      exact ⟨refs, k, k₁, w, h, hk₁, rfl⟩

theorem Propagates.of_propagateFrom {fuel : Nat} {o : Option ClauseRef}
    (h : k₀.Propagates fals [] k) (hp : propagateFrom fuel k = .ok (o, k')) :
    ∃ fals, k₀.Finishes k' fals o := by
  induction fuel generalizing fals k with
  | zero =>
    obtain ⟨rfl, rfl⟩ := Prod.mk.inj (Except.ok.inj hp)
    exact ⟨fals, h⟩
  | succ fuel ih =>
    rw [propagateFrom] at hp
    split at hp
    · obtain ⟨rfl, rfl⟩ := Prod.mk.inj (Except.ok.inj hp)
      exact ⟨fals, h⟩
    · next l t hnext =>
      obtain ⟨⟨o₁, k₁⟩, hk₁, hp⟩ := bind_eq_ok_iff.1 hp
      obtain ⟨⟨list, w⟩, hw, hk₁⟩ := bind_eq_ok_iff.1 hk₁
      have hvisited := (h.take hnext hw).of_visitAll hk₁
      cases o₁ with
      | some conflict =>
        obtain ⟨rfl, rfl⟩ := Prod.mk.inj (Except.ok.inj hp)
        exact ⟨-l, hvisited⟩
      | none => exact ih hvisited hp

/-- Propagation goes through nothing but these kernels. -/
theorem finishes_of_propagate {o : Option ClauseRef} (hp : k₀.propagate = .ok (o, k')) :
    ∃ fals, k₀.Finishes k' fals o :=
  Propagates.of_propagateFrom (.start ⟨⟨1⟩, false⟩) hp

end Kernel
end Cdcl
