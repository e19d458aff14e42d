import Cdcl.Proofs.Progress.Parts

/-!
# Removing constraints does not get stuck

`reduce` reads the learnt clauses, which are stored, and whether they are locked. `simplify` forgets
reasons, which is only allowed for variables fixed at level 0: at level 0 there are no others.
-/

namespace Cdcl.Solver
set_option autoImplicit false

variable {s s' : Solver} {F : Formula} {n m : Nat} {ref : ClauseRef} {refs : List ClauseRef}
  {ls : List Literal} {t : Trail} {rest : List (ClauseRef × Stored)}

/-! ## Thinning out the learnt clauses -/

theorem entriesOf_succeeds {store : Store} (h : ∀ ref ∈ refs, ∃ e, store.get? ref = some e) :
    ∃ rest, entriesOf store refs = .ok rest := by
  induction refs with
  | nil => exact ⟨[], rfl⟩
  | cons ref refs ih =>
    obtain ⟨⟨e, he⟩, hrefs⟩ := List.forall_mem_cons.1 h
    obtain ⟨rest, hrest⟩ := ih hrefs
    exact ⟨_, bind_eq_ok_iff.2 ⟨e, Store.get_eq_ok.2 he, bind_eq_ok_iff.2 ⟨rest, hrest, rfl⟩⟩⟩

theorem Supplied.removeInactive (h : s.Supplied m) (hs : s.Thins F n rest) (extra : Float)
    (quota : Nat) : ∃ s', s.removeInactive extra quota rest = .ok s' ∧ s'.Supplied m := by
  induction rest generalizing s quota with
  | nil => exact ⟨s, rfl, h⟩
  | cons x rest ih =>
    obtain ⟨ref, e⟩ := x
    have hkept := ih (s := s.keepLearnt ref) (h.keepLearnt ref) hs.keep (quota - 1)
    obtain ⟨locked, hlocked⟩ : ∃ b, e.constraint.isLocked ref s.trail = .ok b :=
      Constraint.isLocked_succeeds hs.firm.sound.trail
        (hs.firm.sound.named (hs.stored _ List.mem_cons_self))
    rw [Solver.removeInactive, hlocked]
    split
    · exact hkept
    · cases locked with
      | true => exact hkept
      | false =>
        dsimp only [bind, Except.bind]
        split
        · obtain ⟨s₁, hs₁, h₁⟩ := h.removeConstraint hs.keeps hs.firm.sound ref
          obtain ⟨s', hs', h'⟩ := ih h₁ (hs.remove hlocked hs₁).1 (quota - 1)
          exact ⟨s', bind_eq_ok_iff.2 ⟨s₁, hs₁, hs'⟩, h'⟩
        · exact hkept

theorem Supplied.reduce (h : s.Supplied m) (hs : s.Keeps F) (hk : s.kernel.Firm n)
    (hl : s.store.Lists s.learnts) : ∃ s', s.reduce = .ok s' ∧ s'.Supplied m := by
  obtain ⟨entries, hentries⟩ := entriesOf_succeeds fun ref href =>
    (hl.stored ref href).imp fun _ he => he.1
  have hbase : Supplied { s with learnts := [] } m := h.of_eq rfl rfl rfl rfl rfl rfl rfl rfl
  obtain ⟨s₁, hs₁, h₁⟩ := hbase.removeInactive (hs.thins hk hl hentries)
    (s.clauseIncrement / countToFloat s.learnts.length) (s.learnts.length / 2)
  exact ⟨_, bind_eq_ok_iff.2 ⟨entries, hentries, bind_eq_ok_iff.2 ⟨s₁, hs₁, rfl⟩⟩,
    h₁.of_eq rfl rfl rfl rfl rfl rfl rfl rfl⟩

/-! ## Removing what holds for good -/

theorem redundant_succeeds (ht : t.Valid)
    (hrest : ∀ x ∈ rest, ∀ l ∈ x.2.constraint.literals, t.Names l) :
    ∃ found, redundant t rest = .ok found := by
  induction rest with
  | nil => exact ⟨[], rfl⟩
  | cons x rest ih =>
    obtain ⟨hx, hrest⟩ := List.forall_mem_cons.1 hrest
    obtain ⟨b, hb⟩ := Constraint.isRedundant_succeeds ht hx
    obtain ⟨others, hothers⟩ := ih hrest
    exact ⟨_, bind_eq_ok_iff.2 ⟨b, hb, bind_eq_ok_iff.2 ⟨others, hothers, rfl⟩⟩⟩

theorem clearReason_succeeds {v : Var} (ht : t.Valid) (hlev : t.level = 0)
    (hv : t.reasonOf v = some ref) : ∃ t', t.clearReason v = .ok t' := by
  obtain ⟨m, hm, -⟩ := ht.reasonOf_eq_some hv
  have hcell : t.Covers v := ht.covers (ht.named hm)
  have hzero : t.levelOf v = 0 := Nat.le_zero.1 (hlev ▸ ht.levelOf_le v)
  exact ⟨_, bind_eq_ok_iff.2 ⟨(), Trail.requireVar_eq hcell,
    bind_eq_ok_iff.2 ⟨(), require_eq_ok_iff.2 (by simp [hzero]), rfl⟩⟩⟩

theorem clearReasons_succeeds (ht : t.Valid) (hlev : t.level = 0) (ref : ClauseRef) :
    ∃ t', clearReasons ref ls t = .ok t' := by
  induction ls generalizing t with
  | nil => exact ⟨t, rfl⟩
  | cons l ls ih =>
    rw [clearReasons]
    split
    · next hreason =>
      obtain ⟨t₁, ht₁⟩ := clearReason_succeeds ht hlev (beq_iff_eq.1 hreason)
      have hforgets := Trail.Forgets.of_clearReason ht₁
      obtain ⟨t', ht'⟩ := ih (hforgets.valid ht) (hforgets.level.trans hlev)
      exact ⟨t', bind_eq_ok_iff.2 ⟨t₁, ht₁, ht'⟩⟩
    · exact ih ht hlev

theorem Supplied.forgets (h : s.Supplied m) (ht : s.trail.Forgets t) :
    Supplied { s with kernel := { s.kernel with trail := t } } m :=
  ⟨h.toAmple.follow (ht.valid h.valid) ht.vars h.watches h.order (h.decided.of_forgets ht),
    fun hno c hc => (h.complete hno c hc).of_sameRoot ht.vars (.of_forgets ht)⟩

theorem Supplied.removeRedundant (h : s.Supplied m) (hs : s.Sheds F n rest)
    (hlev : s.trail.level = 0) : ∃ s', s.removeRedundant rest = .ok s' ∧ s'.Supplied m := by
  induction rest generalizing s with
  | nil => exact ⟨s, rfl, h⟩
  | cons x rest ih =>
    obtain ⟨ref, e⟩ := x
    obtain ⟨t, ht⟩ : ∃ t, clearReasons ref e.constraint.literals s.trail = .ok t :=
      clearReasons_succeeds hs.firm.sound.trail hlev ref
    have hforgets := (clearReasons_eq_ok ht).1
    obtain ⟨s₁, hs₁, h₁⟩ := (h.forgets hforgets).removeConstraint (hs.keeps.forgets hforgets)
      (hs.firm.forgets hforgets).sound ref
    obtain ⟨hs₁', htrail, -⟩ := hs.remove ht hs₁
    obtain ⟨s', hs', h'⟩ := ih h₁ hs₁' (htrail ▸ hforgets.level.trans hlev)
    exact ⟨s', bind_eq_ok_iff.2 ⟨t, ht, bind_eq_ok_iff.2 ⟨s₁, hs₁, hs'⟩⟩, h'⟩

theorem Supplied.simplify (h : s.Supplied m) (hs : s.Keeps F) (hk : s.kernel.Firm n)
    (hlev : s.trail.level = 0) : ∃ s', s.simplify = .ok s' ∧ s'.Supplied m := by
  unfold Solver.simplify
  split
  · exact ⟨s, rfl, h⟩
  · obtain ⟨found, hfound⟩ := redundant_succeeds hk.sound.trail fun x hx =>
      hk.sound.named (Store.mem_entries.1 hx)
    obtain ⟨s₁, hs₁, h₁⟩ := h.removeRedundant (hs.sheds hk hfound) hlev
    exact ⟨_, bind_eq_ok_iff.2 ⟨found, hfound, bind_eq_ok_iff.2 ⟨s₁, hs₁, rfl⟩⟩,
      h₁.of_eq rfl rfl rfl rfl rfl rfl rfl rfl⟩

end Cdcl.Solver
