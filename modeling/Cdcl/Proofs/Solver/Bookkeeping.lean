import Cdcl.Proofs.Kernel.Permuting
import Cdcl.Proofs.Progress.Reachable

/-!
# The records of what is stored

A solver keeps three records of its store: `known` finds a constraint of the formula by its key,
`formulaSize` counts these constraints, and `learnts` lists the learnt clauses. `Solver.Books` says
that the records fit the store. Most operations only rearrange what is stored (`Rearranges`). The
ones that store or remove something update the records, so every call keeps the books
(`Books.perform`).
-/

namespace Cdcl
set_option autoImplicit false

namespace Solver

variable {s s' s'' : Solver} {kept kept' : List ClauseRef} {ref conflict : ClauseRef} {e : Stored}
  {rest : List (ClauseRef × Stored)} {n fuel : Nat} {l : Literal} {ls A : List Literal}
  {id : Option ClauseId} {a : Analysis} {b : Budget} {r : Round} {out : Outcome} {v : Verdict}
  {raws : List Int} {added : Added} {c : Constraint} {reply : Reply}

/-! ## Books and what leaves them alone -/

/-- The records fit the store; `kept` lists the learnt clauses. -/
structure Books (s : Solver) (kept : List ClauseRef) : Prop where
  known : ∀ key ref, s.known[key]? = some ref ↔
    ∃ e, s.store.get? ref = some e ∧ e.learnt = false ∧ e.constraint.key = key
  originals : s.formulaSize = (s.store.refs false).length
  nodup : kept.Nodup
  learnt : ∀ ref, ref ∈ kept ↔ ∃ e, s.store.get? ref = some e ∧ e.learnt = true

/-- The same constraints are stored at the same places, up to the order of their literals and their
activities, and the records are the same. -/
structure Rearranges (s s' : Solver) : Prop where
  alike : s.store.Alike s'.store
  known : s'.known = s.known
  originals : s'.formulaSize = s.formulaSize
  learnts : s'.learnts = s.learnts

theorem Rearranges.of_eq (hstore : s'.store = s.store) (hknown : s'.known = s.known)
    (horiginals : s'.formulaSize = s.formulaSize) (hlearnts : s'.learnts = s.learnts) :
    s.Rearranges s' :=
  ⟨hstore ▸ .refl _, hknown, horiginals, hlearnts⟩

theorem Rearranges.refl (s : Solver) : s.Rearranges s := .of_eq rfl rfl rfl rfl

theorem Rearranges.trans (h : s.Rearranges s') (h' : s'.Rearranges s'') : s.Rearranges s'' where
  alike := h.alike.trans h'.alike
  known := h'.known.trans h.known
  originals := h'.originals.trans h.originals
  learnts := h'.learnts.trans h.learnts

theorem Rearranges.start {s₁ : Solver} (h : s₁.Rearranges s') (hstore : s₁.store = s.store)
    (hknown : s₁.known = s.known) (horiginals : s₁.formulaSize = s.formulaSize)
    (hlearnts : s₁.learnts = s.learnts) : s.Rearranges s' :=
  .trans (.of_eq hstore hknown horiginals hlearnts) h

/-- Stores that are alike have constraints of the same kind and the same key at the same places. -/
theorem exists_stored_congr {s s' : Store} (h : s.Alike s') (learnt : Bool)
    (P : ConstraintKey → Prop) :
    (∃ e, s'.get? ref = some e ∧ e.learnt = learnt ∧ P e.constraint.key) ↔
      ∃ e, s.get? ref = some e ∧ e.learnt = learnt ∧ P e.constraint.key := by
  have hmove : ∀ {s s' : Store}, s.Alike s' →
      (∃ e, s.get? ref = some e ∧ e.learnt = learnt ∧ P e.constraint.key) →
      ∃ e, s'.get? ref = some e ∧ e.learnt = learnt ∧ P e.constraint.key := by
    rintro s s' h ⟨e, he, hlearnt, hkey⟩
    obtain ⟨e', he', hface⟩ := h.get? he
    obtain ⟨hk, hl, -⟩ : e'.constraint.key = e.constraint.key ∧ e'.learnt = e.learnt ∧
      e'.clauseId = e.clauseId := by simpa [Stored.face] using hface
    exact ⟨e', he', hl.trans hlearnt, hk ▸ hkey⟩
  exact ⟨hmove h.symm, hmove h⟩

theorem Books.rearrange (h : s.Books kept) (hr : s.Rearranges s') : s'.Books kept where
  known := by
    intro key ref
    rw [hr.known, h.known]
    exact (exists_stored_congr hr.alike false (· = key)).symm
  originals := by rw [hr.originals, h.originals, hr.alike.refs_perm.length_eq]
  nodup := h.nodup
  learnt := by
    intro ref
    rw [h.learnt]
    simpa using (exists_stored_congr hr.alike true fun _ => True).symm

theorem Books.rearranged (h : s.Books s.learnts) (hr : s.Rearranges s') : s'.Books s'.learnts :=
  hr.learnts ▸ h.rearrange hr

theorem Books.of_perm (h : s.Books kept) (hperm : kept'.Perm kept) : s.Books kept' :=
  ⟨h.known, h.originals, hperm.nodup_iff.2 h.nodup, fun ref => hperm.mem_iff.trans (h.learnt ref)⟩

/-- A key belongs to one stored constraint of the formula at most. -/
theorem Books.eq_of_key_eq {ref' : ClauseRef} {e' : Stored} (h : s.Books kept)
    (he : s.store.get? ref = some e) (he' : s.store.get? ref' = some e') (hgiven : e.learnt = false)
    (hgiven' : e'.learnt = false) (hkey : e'.constraint.key = e.constraint.key) : ref' = ref := by
  have h₁ := (h.known e.constraint.key ref).2 ⟨e, he, hgiven, rfl⟩
  have h₂ := (h.known e.constraint.key ref').2 ⟨e', he', hgiven', hkey⟩
  exact Option.some.inj (h₂.symm.trans h₁)

/-- Every stored constraint is on the books once. -/
theorem Books.numConstraints (h : s.Books kept) :
    s.numConstraints = s.formulaSize + kept.length := by
  have hperm : kept.Perm (s.store.refs true) :=
    (List.perm_ext_iff_of_nodup h.nodup (s.store.nodup_refs true)).2 fun ref => by
      rw [h.learnt, Store.mem_refs]
  rw [h.originals, hperm.length_eq]
  exact s.store.size_eq_add

/-! ## Storing and removing -/

/-- A constraint of the formula that is not known is stored. -/
theorem Books.insertOriginal {key : ConstraintKey} {w : Watches} (h : s.Books kept)
    (hgiven : e.learnt = false) (hkey : e.constraint.key = key) (hnew : s.known[key]? = none) :
    Books { s with
      kernel := { s.kernel with store := (s.store.insert e).2, watches := w }
      known := s.known.insert key ⟨s.store.slots.size⟩
      formulaSize := s.formulaSize + 1 } kept where
  known := by
    intro k ref
    change (s.known.insert key _)[k]? = _ ↔ ∃ e', (s.store.insert e).2.get? ref = some e' ∧ _
    rw [Std.HashMap.getElem?_insert, Store.get?_insert]
    by_cases href : ref = ⟨s.store.slots.size⟩
    · subst href
      rw [if_pos rfl]
      by_cases hk : key = k
      · simp [hk, hgiven, hkey.trans hk]
      · have hno : s.known[k]? ≠ some ⟨s.store.slots.size⟩ := by
          rw [Ne, h.known, Store.get?_size]
          simp
        simp [hk, hno, hgiven, hkey]
    · rw [if_neg href, ← h.known]
      by_cases hk : key = k
      · subst hk
        simp [hnew, Ne.symm href]
      · simp [hk]
  originals := by
    change s.formulaSize + 1 = ((s.store.insert e).2.refs false).length
    rw [Store.refs_insert.length_eq, if_pos hgiven, List.length_cons, h.originals]
  nodup := h.nodup
  learnt := by
    intro ref
    change ref ∈ kept ↔ ∃ e', (s.store.insert e).2.get? ref = some e' ∧ _
    rw [h.learnt, Store.get?_insert]
    split
    · next href => simp [href, Store.get?_size, hgiven]
    · rfl

/-- A learnt clause is stored and joins the list. -/
theorem Books.insertLearnt {w : Watches} (h : s.Books kept) (hlearnt : e.learnt = true) :
    Books { s with kernel := { s.kernel with store := (s.store.insert e).2, watches := w } }
      (kept ++ [⟨s.store.slots.size⟩]) where
  known := by
    intro k ref
    change s.known[k]? = _ ↔ ∃ e', (s.store.insert e).2.get? ref = some e' ∧ _
    rw [h.known, Store.get?_insert]
    split
    · next href => simp [href, Store.get?_size, hlearnt]
    · rfl
  originals := by
    change s.formulaSize = ((s.store.insert e).2.refs false).length
    rw [Store.refs_insert.length_eq, if_neg (by simp [hlearnt]), h.originals]
  nodup := by
    refine (List.perm_append_singleton _ kept).nodup_iff.2 (List.nodup_cons.2 ⟨?_, h.nodup⟩)
    rw [h.learnt, Store.get?_size]
    simp
  learnt := by
    intro ref
    change _ ↔ ∃ e', (s.store.insert e).2.get? ref = some e' ∧ _
    rw [List.mem_append, List.mem_singleton, h.learnt, Store.get?_insert]
    by_cases href : ref = ⟨s.store.slots.size⟩
    · simp [href, hlearnt]
    · simp [href]

/-- A constraint that leaves is struck off the records. -/
theorem Books.erase {w : Watches} {known : Std.HashMap ConstraintKey ClauseRef} {size : Nat}
    (h : s.Books kept) (he : s.store.get? ref = some e)
    (hknown : known = if e.learnt then s.known else s.known.erase e.constraint.key)
    (hsize : size = if e.learnt then s.formulaSize else s.formulaSize - 1) :
    Books { s with
      kernel := { s.kernel with store := s.store.erase ref, watches := w }
      known
      formulaSize := size } (kept.erase ref) where
  known := by
    intro key c
    change known[key]? = _ ↔ ∃ e', (s.store.erase ref).get? c = some e' ∧ _
    rw [Store.get?_erase, hknown]
    cases hlearnt : e.learnt with
    | true =>
      rw [if_pos rfl, h.known]
      split
      · next hc => simp [hc, he, hlearnt]
      · rfl
    | false =>
      rw [if_neg (by simp), Std.HashMap.getElem?_erase]
      have hown := (h.known e.constraint.key ref).2 ⟨e, he, hlearnt, rfl⟩
      by_cases hkey : e.constraint.key = key
      · -- no other place has this key
        subst hkey
        simp only [beq_self_eq_true, if_true, reduceCtorEq, false_iff]
        rintro ⟨e', he', hgiven', hkey'⟩
        split at he'
        · exact absurd he' (by simp)
        · next hc => exact hc (h.eq_of_key_eq he he' hlearnt hgiven' hkey')
      · rw [if_neg (by simpa using hkey), h.known]
        split
        · next hc => simp [hc, he, hkey]
        · rfl
  originals := by
    change size = ((s.store.erase ref).refs false).length
    rw [Store.length_refs_erase he, hsize, h.originals]
  nodup := h.nodup.erase ref
  learnt := by
    intro c
    change _ ↔ ∃ e', (s.store.erase ref).get? c = some e' ∧ _
    rw [h.nodup.mem_erase_iff, h.learnt, Store.get?_erase]
    by_cases hc : c = ref
    · simp [hc]
    · simp [hc]

/-- What is removed is gone for good, and it is off the books. -/
theorem Books.removeConstraint (h : s.Books kept) (hr : s.removeConstraint ref = .ok s') :
    s'.Books (kept.erase ref) ∧ s'.learnts = s.learnts ∧
      ∀ c e, s'.store.get? c = some e → s.store.get? c = some e := by
  unfold Solver.removeConstraint at hr
  split at hr
  · next hnone =>
    obtain rfl := Except.ok.inj hr
    have hno : ref ∉ kept := by
      rw [h.learnt, hnone]
      simp
    rw [List.erase_of_not_mem hno]
    exact ⟨h, rfl, fun _ _ => id⟩
  · next e he =>
    obtain ⟨k, hk, hr⟩ := bind_eq_ok_iff.1 hr
    obtain ⟨w, -, hk⟩ := bind_eq_ok_iff.1 hk
    obtain rfl := Except.ok.inj hk
    obtain ⟨s₁, hs₁, hr⟩ := bind_eq_ok_iff.1 hr
    obtain ⟨s₂, hs₂, hr⟩ := bind_eq_ok_iff.1 hr
    obtain rfl := Except.ok.inj hr
    obtain ⟨cert, journal, rfl⟩ : ∃ cert journal, s₁ = { s with
        kernel := { s.kernel with store := s.store.erase ref, watches := w }
        certificate := cert
        journal } := ⟨_, _, (certify_eq_ok hs₁).1⟩
    have hold : ∀ c e', (s.store.erase ref).get? c = some e' → s.store.get? c = some e' := by
      intro c e' hc
      rw [Store.get?_erase] at hc
      split at hc
      · exact absurd hc (by simp)
      · exact hc
    obtain ⟨known, size, hknown, hsize, rfl⟩ := strikeOff_eq_ok hs₂
    exact ⟨(h.erase (w := w) he hknown hsize).rearrange (.of_eq rfl rfl rfl rfl), rfl, hold⟩

/-! ## Operations that rearrange -/

theorem Logs.rearranges (h : Logs s s') : s.Rearranges s' := by
  unfold Logs at h
  exact .of_eq (h ▸ rfl) (h ▸ rfl) (h ▸ rfl) (h ▸ rfl)

theorem Bumps.rearranges (h : Bumps s s') : s.Rearranges s' := by
  obtain ⟨store, inc, hsame, rfl⟩ := h
  exact ⟨hsame.alike, rfl, rfl, rfl⟩

theorem certify_rearranges {step : Certificate → Except Fault Certificate}
    (hr : s.certify step = .ok s') : s.Rearranges s' := (certify_eq_ok hr).1.rearranges

theorem certifyClause_rearranges {step : Certificate → Except Fault (ClauseId × Certificate)}
    (hr : s.certifyClause step = .ok (id, s')) : s.Rearranges s' :=
  (certifyClause_eq_ok hr).1.rearranges

theorem propagate_rearranges {o : Option ClauseRef} (hr : s.propagate = .ok (o, s')) :
    s.Rearranges s' := by
  obtain ⟨⟨o, k⟩, hk, hr⟩ := bind_eq_ok_iff.1 hr
  obtain ⟨-, rfl⟩ := Prod.mk.inj (Except.ok.inj hr)
  exact ⟨(Kernel.propagate_permutes hk).alike, rfl, rfl, rfl⟩

theorem backtrack_rearranges (hr : s.backtrack n = .ok s') : s.Rearranges s' := by
  obtain ⟨o, -, rfl⟩ := backtrack_eq_ok hr
  exact .of_eq rfl rfl rfl rfl

theorem assert_rearranges {reason : Option ClauseRef} {f : Fault}
    (hr : s.assert l reason f = .ok s') : s.Rearranges s' := by
  obtain ⟨rfl, -⟩ | ⟨rfl, -⟩ := assert_eq_ok hr <;> exact .of_eq rfl rfl rfl rfl

theorem rootConflict_rearranges (hr : s.rootConflict conflict = .ok s') : s.Rearranges s' := by
  obtain ⟨s₁, hs₁, hr⟩ := bind_eq_ok_iff.1 hr
  obtain ⟨e, -, hr⟩ := bind_eq_ok_iff.1 hr
  obtain ⟨⟨id, s₂⟩, hs₂, hr⟩ := bind_eq_ok_iff.1 hr
  obtain rfl := Except.ok.inj hr
  refine (certify_rearranges hs₁).trans ((certifyClause_rearranges hs₂).trans ?_)
  cases id <;> exact .of_eq rfl rfl rfl rfl

theorem analyze_rearranges (hr : s.analyze conflict = .ok (a, id, s')) : s.Rearranges s' := by
  obtain ⟨⟨a₁, analyzer⟩, -, hr⟩ := bind_eq_ok_iff.1 hr
  obtain ⟨order, -, hr⟩ := bind_eq_ok_iff.1 hr
  obtain ⟨-, -, hr⟩ := bind_eq_ok_iff.1 hr
  obtain ⟨⟨id₁, s₁⟩, hs₁, hr⟩ := bind_eq_ok_iff.1 hr
  obtain ⟨-, hpair⟩ := Prod.mk.inj (Except.ok.inj hr)
  obtain ⟨-, rfl⟩ := Prod.mk.inj hpair
  exact .trans ((certifyClause_rearranges hs₁).start rfl rfl rfl rfl) (.of_eq rfl rfl rfl rfl)

theorem restart_rearranges (hr : restart b s = .ok (out, s')) : s.Rearranges s' := by
  obtain ⟨s₁, hs₁, hr⟩ := bind_eq_ok_iff.1 hr
  refine (backtrack_rearranges hs₁).trans ?_
  dsimp only at hr
  split at hr
  · obtain ⟨-, rfl⟩ := Prod.mk.inj (Except.ok.inj hr)
    exact .of_eq rfl rfl rfl rfl
  · obtain ⟨⟨interval, restarts⟩, -, hr⟩ := bind_eq_ok_iff.1 hr
    obtain ⟨-, rfl⟩ := Prod.mk.inj (Except.ok.inj hr)
    exact .of_eq rfl rfl rfl rfl

theorem decideOn_rearranges (hr : decideOn r l s = .ok (out, s')) : s.Rearranges s' := by
  obtain ⟨t, -, hr⟩ := bind_eq_ok_iff.1 hr
  obtain ⟨-, rfl⟩ := Prod.mk.inj (Except.ok.inj hr)
  exact .of_eq rfl rfl rfl rfl

theorem choose_rearranges (hr : choose A r s = .ok (out, s')) : s.Rearranges s' := by
  unfold choose at hr
  split at hr
  · obtain ⟨⟨picked, order⟩, -, hr⟩ := bind_eq_ok_iff.1 hr
    cases picked with
    | none =>
      obtain ⟨-, rfl⟩ := Prod.mk.inj (Except.ok.inj hr)
      exact .of_eq rfl rfl rfl rfl
    | some l => exact (decideOn_rearranges hr).start rfl rfl rfl rfl
  · obtain ⟨sat, -, hr⟩ := bind_eq_ok_iff.1 hr
    split at hr
    · obtain ⟨-, rfl⟩ := Prod.mk.inj (Except.ok.inj hr)
      exact .of_eq rfl rfl rfl rfl
    · obtain ⟨fals, -, hr⟩ := bind_eq_ok_iff.1 hr
      split at hr
      · obtain ⟨-, rfl⟩ := Prod.mk.inj (Except.ok.inj hr)
        exact .of_eq rfl rfl rfl rfl
      · exact decideOn_rearranges hr

theorem newVars_rearranges (hr : s.newVars n = .ok s') : s.Rearranges s' := by
  obtain ⟨⟨first, k⟩, hk, hr⟩ := bind_eq_ok_iff.1 hr
  obtain ⟨-, t, w, -, -, rfl⟩ := Kernel.newVars_eq_ok hk
  dsimp only at hr
  split at hr
  · obtain rfl := Except.ok.inj hr
    exact .of_eq rfl rfl rfl rfl
  · obtain ⟨analyzer, -, hr⟩ := bind_eq_ok_iff.1 hr
    obtain ⟨s₁, hs₁, hr⟩ := bind_eq_ok_iff.1 hr
    obtain ⟨o, -, hr⟩ := bind_eq_ok_iff.1 hr
    obtain rfl := Except.ok.inj hr
    exact .trans ((certify_rearranges hs₁).start rfl rfl rfl rfl) (.of_eq rfl rfl rfl rfl)

theorem enableCertificate_rearranges (hr : s.enableCertificate = .ok s') : s.Rearranges s' := by
  obtain ⟨-, -, hr⟩ := bind_eq_ok_iff.1 hr
  split at hr
  · exact Except.ok.inj hr ▸ .refl s
  · obtain ⟨c, -, hr⟩ := bind_eq_ok_iff.1 hr
    exact Except.ok.inj hr ▸ .of_eq rfl rfl rfl rfl

theorem propagateRoot_rearranges {o : Except SolverError Unit}
    (hr : s.propagateRoot = .ok (o, s')) : s.Rearranges s' := by
  obtain ⟨⟨conflict, s₁⟩, hs₁, hr⟩ := bind_eq_ok_iff.1 hr
  refine (propagate_rearranges hs₁).trans ?_
  cases conflict with
  | none =>
    obtain ⟨s₂, hs₂, hr⟩ := bind_eq_ok_iff.1 hr
    obtain ⟨-, rfl⟩ := Prod.mk.inj (Except.ok.inj hr)
    exact certify_rearranges hs₂
  | some ref =>
    obtain ⟨s₂, hs₂, hr⟩ := bind_eq_ok_iff.1 hr
    obtain ⟨-, rfl⟩ := Prod.mk.inj (Except.ok.inj hr)
    exact rootConflict_rearranges hs₂

theorem assertUnit_rearranges {o : Except SolverError Unit}
    (hr : s.assertUnit l id = .ok (o, s')) : s.Rearranges s' := by
  obtain ⟨s₁, hs₁, hr⟩ := bind_eq_ok_iff.1 hr
  obtain ⟨s₂, hs₂, hr⟩ := bind_eq_ok_iff.1 hr
  exact (assert_rearranges hs₁).trans ((certify_rearranges hs₂).trans (propagateRoot_rearranges hr))

theorem assertAll_rearranges (hr : s.assertAll ls = .ok s') : s.Rearranges s' := by
  induction ls generalizing s with
  | nil => exact Except.ok.inj hr ▸ .refl s
  | cons l ls ih =>
    obtain ⟨s₁, hs₁, hr⟩ := bind_eq_ok_iff.1 hr
    exact (assert_rearranges hs₁).trans (ih hr)

/-! ## Cleaning -/

theorem Books.removeInactive {extra : Float} {quota : Nat}
    (h : s.Books (s.learnts ++ rest.map Prod.fst))
    (hr : s.removeInactive extra quota rest = .ok s') : s'.Books s'.learnts := by
  induction rest generalizing s quota with
  | nil =>
    obtain rfl := Except.ok.inj hr
    simpa using h
  | cons x rest ih =>
    obtain ⟨ref, e⟩ := x
    rcases removeInactive_cons hr with hr | ⟨-, s₁, hs₁, hr⟩
    · refine ih (s := s.keepLearnt ref) ?_ hr
      change (s.keepLearnt ref).Books (s.learnts ++ [ref] ++ rest.map Prod.fst)
      rw [List.append_assoc]
      exact ⟨h.known, h.originals, h.nodup, h.learnt⟩
    · obtain ⟨h₁, hlearnts, -⟩ := h.removeConstraint hs₁
      refine ih (h₁.of_perm ?_) hr
      have hperm : (s.learnts ++ ref :: rest.map Prod.fst).Perm
          (ref :: (s.learnts ++ rest.map Prod.fst)) := List.perm_middle
      have hgone := hperm.erase ref
      rw [List.erase_cons_head] at hgone
      exact hlearnts ▸ hgone.symm

theorem Books.reduce (h : s.Books s.learnts) (hr : s.reduce = .ok s') : s'.Books s'.learnts := by
  obtain ⟨entries, hentries, hr⟩ := bind_eq_ok_iff.1 hr
  obtain ⟨s₁, hs₁, hr⟩ := bind_eq_ok_iff.1 hr
  obtain rfl := Except.ok.inj hr
  have hfst := (List.mergeSort_perm entries (removedBefore s.config.clauseDecay.isNaN)).map Prod.fst
  rw [(entriesOf_eq_ok hentries).1] at hfst
  have h₀ : Books { s with learnts := [] } s.learnts := ⟨h.known, h.originals, h.nodup, h.learnt⟩
  exact ((h₀.of_perm hfst).removeInactive hs₁).rearranged (.of_eq rfl rfl rfl rfl)

theorem Books.removeRedundant (h : s.Books kept) (hr : s.removeRedundant rest = .ok s') :
    (∃ kept', s'.Books kept') ∧ s'.learnts = s.learnts ∧
      ∀ c e, s'.store.get? c = some e → s.store.get? c = some e := by
  induction rest generalizing s kept with
  | nil =>
    obtain rfl := Except.ok.inj hr
    exact ⟨⟨kept, h⟩, rfl, fun _ _ => id⟩
  | cons x rest ih =>
    obtain ⟨ref, e⟩ := x
    obtain ⟨t, -, hr⟩ := bind_eq_ok_iff.1 hr
    obtain ⟨s₁, hs₁, hr⟩ := bind_eq_ok_iff.1 hr
    have h₀ : Books { s with kernel := { s.kernel with trail := t } } kept :=
      h.rearrange (.of_eq rfl rfl rfl rfl)
    obtain ⟨h₁, hlearnts₁, hold₁⟩ := h₀.removeConstraint hs₁
    obtain ⟨hbooks, hlearnts, hold⟩ := ih h₁ hr
    exact ⟨hbooks, hlearnts.trans hlearnts₁, fun c e he => hold₁ c e (hold c e he)⟩

/-- Once nothing but removals happened, the learnt clauses are those that are still stored. -/
theorem Books.filter (h : s.Books kept) (h' : s'.Books kept')
    (hold : ∀ c e, s'.store.get? c = some e → s.store.get? c = some e) :
    s'.Books (kept.filter s'.store.contains) where
  known := h'.known
  originals := h'.originals
  nodup := h.nodup.filter _
  learnt := by
    intro ref
    rw [List.mem_filter, h.learnt, Store.contains, Option.isSome_iff_exists]
    constructor
    · rintro ⟨⟨e, he, hlearnt⟩, e', he'⟩
      obtain rfl := Option.some.inj (he.symm.trans (hold ref e' he'))
      exact ⟨e, he', hlearnt⟩
    · rintro ⟨e, he, hlearnt⟩
      exact ⟨⟨e, hold ref e he, hlearnt⟩, e, he⟩

theorem Books.simplify (h : s.Books s.learnts) (hr : s.simplify = .ok s') :
    s'.Books s'.learnts := by
  unfold Solver.simplify at hr
  split at hr
  · exact Except.ok.inj hr ▸ h
  · obtain ⟨found, -, hr⟩ := bind_eq_ok_iff.1 hr
    obtain ⟨s₁, hs₁, hr⟩ := bind_eq_ok_iff.1 hr
    obtain rfl := Except.ok.inj hr
    obtain ⟨⟨kept₁, h₁⟩, hlearnts, hold⟩ := h.removeRedundant hs₁
    have hfilter := h.filter h₁ hold
    rw [← hlearnts] at hfilter
    exact ⟨hfilter.known, hfilter.originals, hfilter.nodup, hfilter.learnt⟩

/-! ## Searching -/

/-- A learnt clause that is stored joins the list. -/
theorem Books.learn (h : s.Books s.learnts) (hr : s.learn a id = .ok s') :
    s'.Books s'.learnts := by
  obtain ⟨s₁, hs₁, hr⟩ := bind_eq_ok_iff.1 hr
  obtain ⟨s₂, hs₂, hr⟩ := bind_eq_ok_iff.1 hr
  have h₂ : s₂.Books s₂.learnts :=
    h.rearranged ((bumpLearnts_eq_ok hs₁).rearranges.trans (backtrack_rearranges hs₂))
  split at hr
  · exact Except.ok.inj hr ▸ h₂.rearranged (.of_eq rfl rfl rfl rfl)
  · obtain ⟨s₃, hs₃, hr⟩ := bind_eq_ok_iff.1 hr
    obtain ⟨s₄, hs₄, hr⟩ := bind_eq_ok_iff.1 hr
    obtain rfl := Except.ok.inj hr
    exact h₂.rearranged
      ((assert_rearranges hs₃).trans ((certify_rearranges hs₄).trans (.of_eq rfl rfl rfl rfl)))
  · obtain ⟨c, -, hr⟩ := bind_eq_ok_iff.1 hr
    obtain ⟨⟨ref, s₃⟩, hs₃, hr⟩ := bind_eq_ok_iff.1 hr
    obtain ⟨s₄, hs₄, hr⟩ := bind_eq_ok_iff.1 hr
    obtain ⟨s₅, hs₅, hr⟩ := bind_eq_ok_iff.1 hr
    obtain rfl := Except.ok.inj hr
    obtain ⟨rfl, w, -, rfl⟩ := insertConstraint_eq_ok hs₃
    have h₃ := h₂.insertLearnt (e := ⟨c, 0.0, true, id⟩) (w := w) rfl
    have hkept : Books (keepLearnt { s₂ with kernel := { s₂.kernel with
        store := (s₂.store.insert ⟨c, 0.0, true, id⟩).2, watches := w } } ⟨s₂.store.slots.size⟩)
        (s₂.learnts ++ [⟨s₂.store.slots.size⟩]) :=
      ⟨h₃.known, h₃.originals, h₃.nodup, h₃.learnt⟩
    exact Books.rearranged hkept ((bumpClause_eq_ok hs₄).rearranges.trans
      ((assert_rearranges hs₅).trans (.of_eq rfl rfl rfl rfl)))

theorem Books.onConflict (h : s.Books s.learnts) (hr : onConflict b r conflict s = .ok (out, s')) :
    s'.Books s'.learnts := by
  unfold Solver.onConflict at hr
  dsimp only at hr
  split at hr
  · obtain ⟨s₁, hs₁, hr⟩ := bind_eq_ok_iff.1 hr
    obtain ⟨-, rfl⟩ := Prod.mk.inj (Except.ok.inj hr)
    exact h.rearranged ((rootConflict_rearranges hs₁).start rfl rfl rfl rfl)
  · obtain ⟨⟨a, id, s₁⟩, hs₁, hr⟩ := bind_eq_ok_iff.1 hr
    obtain ⟨s₂, hs₂, hr⟩ := bind_eq_ok_iff.1 hr
    have h₂ : s₂.Books s₂.learnts :=
      (h.rearranged ((analyze_rearranges hs₁).start rfl rfl rfl rfl)).learn hs₂
    split at hr
    · obtain ⟨-, rfl⟩ := Prod.mk.inj (Except.ok.inj hr)
      exact h₂.rearranged (.of_eq rfl rfl rfl rfl)
    · obtain ⟨-, rfl⟩ := Prod.mk.inj (Except.ok.inj hr)
      exact h₂.rearranged (.of_eq rfl rfl rfl rfl)

theorem Books.settle (h : s.Books s.learnts) (hr : s.settle = .ok s') : s'.Books s'.learnts := by
  unfold Solver.settle at hr
  split at hr
  · obtain ⟨s₁, hs₁, hr⟩ := bind_eq_ok_iff.1 hr
    exact (h.rearranged (certify_rearranges hs₁)).simplify hr
  · exact Except.ok.inj hr ▸ h

theorem Books.thin (h : s.Books s.learnts) (hr : s.thin = .ok s') : s'.Books s'.learnts := by
  unfold Solver.thin at hr
  split at hr
  · exact h.reduce hr
  · exact Except.ok.inj hr ▸ h

theorem Books.onFixpoint (h : s.Books s.learnts) (hr : onFixpoint b A r s = .ok (out, s')) :
    s'.Books s'.learnts := by
  rw [onFixpoint_eq] at hr
  obtain ⟨s₁, hs₁, hr⟩ := bind_eq_ok_iff.1 hr
  have h₁ := h.settle hs₁
  split at hr
  · exact h₁.rearranged (restart_rearranges hr)
  · obtain ⟨s₂, hs₂, hr⟩ := bind_eq_ok_iff.1 hr
    exact (h₁.thin hs₂).rearranged (choose_rearranges hr)

/-- Each step of a search keeps the books. -/
theorem Books.step (h : s.Books s.learnts) (hr : step b A r s = .ok (out, s')) :
    s'.Books s'.learnts := by
  obtain ⟨⟨conflict, s₁⟩, hs₁, hr⟩ := bind_eq_ok_iff.1 hr
  have h₁ := h.rearranged (propagate_rearranges hs₁)
  cases conflict with
  | some ref => exact h₁.onConflict hr
  | none => exact h₁.onFixpoint hr

theorem Books.run (h : s.Books s.learnts) (hr : run b A fuel r s = .ok (v, s')) :
    s'.Books s'.learnts :=
  run_induction (P := fun _ t => t.Books t.learnts) (Q := fun _ t => t.Books t.learnts) hr h
    (fun h hs₁ => h.step hs₁) (fun h hs₁ => h.step hs₁) id

theorem Books.rounds {r₀ : Round} {s₀ : Solver} (h : s₀.Books s₀.learnts)
    (hr : Rounds b A r₀ s₀ r s) : s.Books s.learnts := by
  induction hr with
  | start => exact h
  | goOn _ hr ih => exact ih.step hr

theorem Books.solve (h : s.Books s.learnts) (hr : s.solve fuel raws = .ok (v, s')) :
    s'.Books s'.learnts := by
  obtain ⟨-, -, rfl⟩ | ⟨-, ls, b, interval, restarts, s₁, s₂, -, -, -, hs₁, hs₂, rfl⟩ :=
    solve_cases hr
  · exact h.rearranged (.of_eq rfl rfl rfl rfl)
  · have hstart : (s.atStart ls.length restarts).Books (s.atStart ls.length restarts).learnts :=
      h.rearranged (.of_eq rfl rfl rfl rfl)
    exact ((hstart.run hs₁).rearranged (backtrack_rearranges hs₂)).rearranged
      (.of_eq rfl rfl rfl rfl)

/-! ## Additions -/

theorem Books.storeGiven {given : List Literal} {what : Handle} (h : s.Books s.learnts)
    (hr : s.storeGiven c given = .ok (what, s')) : s'.Books s'.learnts := by
  unfold Solver.storeGiven at hr
  split at hr
  · obtain ⟨-, rfl⟩ := Prod.mk.inj (Except.ok.inj hr)
    exact h.rearranged (.of_eq rfl rfl rfl rfl)
  · next hnew =>
    obtain ⟨⟨id, s₁⟩, hs₁, hr⟩ := bind_eq_ok_iff.1 hr
    obtain ⟨⟨ref, s₂⟩, hs₂, hr⟩ := bind_eq_ok_iff.1 hr
    obtain ⟨-, rfl⟩ := Prod.mk.inj (Except.ok.inj hr)
    have hrearranges := certifyClause_rearranges hs₁
    obtain ⟨rfl, w, -, rfl⟩ := insertConstraint_eq_ok hs₂
    exact (h.rearranged hrearranges).insertOriginal (e := ⟨c, 0.0, false, id⟩) rfl rfl
      (hrearranges.known ▸ hnew)

theorem Books.addLiterals (h : s.Books s.learnts) (hr : s.addLiterals ls = .ok (added, s')) :
    s'.Books s'.learnts := by
  unfold Solver.addLiterals at hr
  split at hr
  · obtain ⟨-, rfl⟩ := Prod.mk.inj (Except.ok.inj hr)
    exact h
  · obtain ⟨form, -, hr⟩ := bind_eq_ok_iff.1 hr
    split at hr
    · obtain ⟨⟨id, s₁⟩, hs₁, hr⟩ := bind_eq_ok_iff.1 hr
      obtain ⟨-, rfl⟩ := Prod.mk.inj (Except.ok.inj hr)
      exact (h.rearranged (certifyClause_rearranges hs₁)).rearranged (.of_eq rfl rfl rfl rfl)
    · obtain ⟨-, rfl⟩ := Prod.mk.inj (Except.ok.inj hr)
      exact h
    · obtain ⟨⟨id, s₁⟩, hs₁, hr⟩ := bind_eq_ok_iff.1 hr
      obtain ⟨⟨o, s₂⟩, hs₂, hr⟩ := bind_eq_ok_iff.1 hr
      obtain ⟨-, rfl⟩ := Prod.mk.inj (Except.ok.inj hr)
      exact h.rearranged ((certifyClause_rearranges hs₁).trans (assertUnit_rearranges hs₂))
    · obtain ⟨c, -, hr⟩ := bind_eq_ok_iff.1 hr
      obtain ⟨⟨what, s₁⟩, hs₁, hr⟩ := bind_eq_ok_iff.1 hr
      obtain ⟨-, rfl⟩ := Prod.mk.inj (Except.ok.inj hr)
      exact h.storeGiven hs₁

theorem Books.addCardinality (h : s.Books s.learnts)
    (hr : s.addCardinality ls n = .ok (added, s')) : s'.Books s'.learnts := by
  obtain ⟨form, -, hr⟩ := bind_eq_ok_iff.1 hr
  split at hr
  · obtain ⟨-, rfl⟩ := Prod.mk.inj (Except.ok.inj hr)
    exact h.rearranged (.of_eq rfl rfl rfl rfl)
  · obtain ⟨-, rfl⟩ := Prod.mk.inj (Except.ok.inj hr)
    exact h
  · obtain ⟨-, rfl⟩ := Prod.mk.inj (Except.ok.inj hr)
    exact h
  · obtain ⟨s₁, hs₁, hr⟩ := bind_eq_ok_iff.1 hr
    obtain ⟨⟨o, s₂⟩, hs₂, hr⟩ := bind_eq_ok_iff.1 hr
    obtain ⟨-, rfl⟩ := Prod.mk.inj (Except.ok.inj hr)
    exact h.rearranged ((assertAll_rearranges hs₁).trans (propagateRoot_rearranges hs₂))
  · obtain ⟨⟨o, s₁⟩, hs₁, hr⟩ := bind_eq_ok_iff.1 hr
    obtain ⟨-, rfl⟩ := Prod.mk.inj (Except.ok.inj hr)
    exact h.rearranged (assertUnit_rearranges hs₁)
  · obtain ⟨c, -, hr⟩ := bind_eq_ok_iff.1 hr
    obtain ⟨⟨what, s₁⟩, hs₁, hr⟩ := bind_eq_ok_iff.1 hr
    obtain ⟨-, rfl⟩ := Prod.mk.inj (Except.ok.inj hr)
    exact h.storeGiven hs₁
  · obtain ⟨c, -, hr⟩ := bind_eq_ok_iff.1 hr
    obtain ⟨⟨what, s₁⟩, hs₁, hr⟩ := bind_eq_ok_iff.1 hr
    obtain ⟨-, rfl⟩ := Prod.mk.inj (Except.ok.inj hr)
    exact h.storeGiven hs₁

/-- Every call keeps the books. -/
theorem Books.perform {call : Call} (h : s.Books s.learnts)
    (hr : s.perform call = .ok (reply, s')) : s'.Books s'.learnts := by
  cases performs_of_eq_ok hr with
  | newVars hr => exact h.rearranged (newVars_rearranges hr)
  | addClause hr =>
    obtain ⟨ls, -, hr⟩ := bind_eq_ok_iff.1 hr
    exact h.addLiterals hr
  | addAtLeast hr =>
    obtain ⟨ls, -, hr⟩ := bind_eq_ok_iff.1 hr
    split at hr
    · obtain ⟨-, rfl⟩ := Prod.mk.inj (Except.ok.inj hr)
      exact h
    · split at hr
      · split at hr
        · obtain ⟨-, rfl⟩ := Prod.mk.inj (Except.ok.inj hr)
          exact h
        · exact h.addLiterals hr
        · obtain ⟨-, rfl⟩ := Prod.mk.inj (Except.ok.inj hr)
          exact h
      · exact h.addCardinality hr
  | solve hr => exact h.solve hr
  | limitTime limit | limitConflicts limit => exact h.rearranged (.of_eq rfl rfl rfl rfl)
  | enableCertificate hr => exact h.rearranged (enableCertificate_rearranges hr)

theorem books_create {config : Config} (h : create config = .ok s) : s.Books s.learnts := by
  obtain ⟨o, -, h⟩ := bind_eq_ok_iff.1 h
  obtain ⟨restarts, -, h⟩ := bind_eq_ok_iff.1 h
  obtain rfl := Except.ok.inj h
  exact ⟨by simp [Solver.store, Store.get?], rfl, .nil, by simp [Solver.store, Store.get?]⟩

end Solver
end Cdcl
