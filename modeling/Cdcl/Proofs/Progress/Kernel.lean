import Cdcl.Proofs.Kernel.Propagation
import Cdcl.Proofs.Progress.Reading
import Cdcl.Proofs.Progress.Room

/-!
# Propagation does not get stuck

With room for the watch lists of all variables, every operation on a kernel has a result and keeps the
room. In a visit the constraint is there, because watch lists hold only constraints that are stored,
and it watches the false literal, because it stands on the list of this literal.
-/

namespace Cdcl.Kernel
set_option autoImplicit false

variable {k : Kernel} {fals l : Literal} {ref : ClauseRef} {refs : List ClauseRef} {e : Stored}
  {c : Constraint} {t : Trail} {ls : List Literal}

theorem forceAll_succeeds (ref : ClauseRef) (ht : t.Valid) (hls : ∀ l ∈ ls, t.Names l) :
    ∃ b t', forceAll ref ls t = .ok (b, t') := by
  induction ls generalizing t with
  | nil => exact ⟨true, t, rfl⟩
  | cons l ls ih =>
    obtain ⟨hl, hls'⟩ := List.forall_mem_cons.1 hls
    obtain ⟨o, ho⟩ := ht.assign hl (r := some ref)
    obtain ⟨rfl, -⟩ | ⟨rfl, -⟩ | ⟨rfl, hnone, -⟩ := Trail.assign_eq_ok ho
    · exact ⟨false, t, bind_eq_ok_iff.2 ⟨_, ho, rfl⟩⟩
    · obtain ⟨b, t', ht'⟩ := ih ht hls'
      exact ⟨b, t', bind_eq_ok_iff.2 ⟨_, ho, ht'⟩⟩
    · obtain ⟨b, t', ht'⟩ := ih (ht.push hl hnone) hls'
      exact ⟨b, t', bind_eq_ok_iff.2 ⟨_, ho, ht'⟩⟩

/-! ## Visits -/

/-- The constraint of an owed entry is stored and watches the false literal. -/
theorem Visiting.stored (h : k.Visiting fals refs) (href : ref ∈ refs) :
    ∃ e, k.store.get? ref = some e ∧ fals ∈ e.constraint.watching := by
  cases he : k.store.get? ref with
  | some e => exact ⟨e, rfl, h.owing.mem_watching href he⟩
  | none =>
    have howed := h.owing ref fals
    rw [Store.watching_of_none he, if_pos rfl] at howed
    have hcount := List.count_pos_iff.2 href
    simp only [List.count_nil] at howed
    omega

theorem Current.names (h : Current t fals) (ht : t.Valid) : t.Names fals := by
  obtain ⟨m, hm, -⟩ := h
  exact ht.named hm

/-- Whatever a reaction asks for can be done if it names known variables. -/
theorem apply_succeeds {r : Reaction} (ref : ClauseRef) (ht : k.trail.Valid)
    (hroom : k.watches.Room k.trail.vars) (hfals : k.trail.Names fals) (hmove : ∀ l, r = .move l → k.trail.Names l)
    (hforce : ∀ ls, r = .force ls → ∀ l ∈ ls, k.trail.Names l) :
    ∃ b k', k.apply ref fals r = .ok (b, k') ∧ k'.watches.Room k.trail.vars := by
  obtain ⟨w, hw, hwroom⟩ := Watches.Room.add hroom (c := ref) hfals
  cases r with
  | keep => exact ⟨true, _, bind_eq_ok_iff.2 ⟨w, hw, rfl⟩, hwroom⟩
  | conflict => exact ⟨false, _, bind_eq_ok_iff.2 ⟨w, hw, rfl⟩, hwroom⟩
  | move l =>
    obtain ⟨w', hw', hwroom'⟩ := Watches.Room.add hroom (c := ref) (hmove l rfl)
    exact ⟨true, _, bind_eq_ok_iff.2 ⟨w', hw', rfl⟩, hwroom'⟩
  | force ls =>
    obtain ⟨b, t', ht'⟩ := forceAll_succeeds ref ht (hforce ls rfl)
    exact ⟨b, _, bind_eq_ok_iff.2 ⟨w, hw, bind_eq_ok_iff.2 ⟨_, ht', rfl⟩⟩, hwroom⟩

theorem visit_succeeds (h : k.Visiting fals (ref :: refs)) (hroom : k.watches.Room k.trail.vars) :
    ∃ b k', k.visit ref fals = .ok (b, k') ∧ k'.watches.Room k'.trail.vars := by
  obtain ⟨e, he, hin⟩ := h.stored List.mem_cons_self
  have ht := h.sound.trail
  have hwatched : ∀ l ∈ e.constraint.watching, k.trail.Names l := fun l hl =>
    h.sound.named he l (Constraint.mem_literals.2 (Or.inl hl))
  obtain ⟨⟨c', r⟩, hreact⟩ := Constraint.react_succeeds ht (h.sound.named he) hin
  obtain ⟨-, -, hkey, hr⟩ := Constraint.react_eq_ok (h.sound.shape he) hreact
  have hmove : ∀ l, r = .move l → k.trail.Names l := by
    rintro l rfl
    have hl : l ∈ c'.literals :=
      Constraint.mem_literals.2 (Or.inl (hr.1.mem_iff.2 List.mem_cons_self))
    exact h.sound.named he l ((Constraint.perm_of_key_eq hkey).mem_iff.1 hl)
  have hforce : ∀ ls, r = .force ls → ∀ l ∈ ls, k.trail.Names l := by
    rintro ls rfl l hl
    exact hwatched l ((hr.2.1 l).1 hl).1
  obtain ⟨b, k', hk', hroom'⟩ :=
    apply_succeeds (k := { k with store := k.store.put ref { e with constraint := c' } }) ref ht hroom
      (h.current.names ht) hmove hforce
  have hv : k.visit ref fals = .ok (b, k') :=
    bind_eq_ok_iff.2 ⟨e, Store.get_eq_ok.2 he, bind_eq_ok_iff.2 ⟨_, hreact, hk'⟩⟩
  exact ⟨b, k', hv, (visit_eq_ok h hv).1.vars.symm ▸ hroom'⟩

theorem visitAll_succeeds (h : k.Visiting fals refs) (hroom : k.watches.Room k.trail.vars) :
    ∃ o k', visitAll fals refs k = .ok (o, k') ∧ k'.watches.Room k'.trail.vars := by
  induction refs generalizing k with
  | nil => exact ⟨none, k, rfl, hroom⟩
  | cons ref refs ih =>
    obtain ⟨b, k₁, hk₁, hroom₁⟩ := visit_succeeds h hroom
    obtain ⟨-, -, -, hb⟩ := visit_eq_ok h hk₁
    cases b with
    | true =>
      obtain ⟨o, k', hk', hroom'⟩ := ih hb hroom₁
      exact ⟨o, k', bind_eq_ok_iff.2 ⟨_, hk₁, hk'⟩, hroom'⟩
    | false =>
      obtain ⟨w, hw, hwroom⟩ := hroom₁.restore (hb.current.names hb.sound.trail) refs
      exact ⟨some ref, _, bind_eq_ok_iff.2 ⟨_, hk₁, bind_eq_ok_iff.2 ⟨w, hw, rfl⟩⟩, hwroom⟩

/-! ## Whole propagations -/

theorem propagateFrom_succeeds {fuel : Nat} (h : k.Ready) (hroom : k.watches.Room k.trail.vars) :
    ∃ o k', propagateFrom fuel k = .ok (o, k') ∧ k'.watches.Room k'.trail.vars := by
  induction fuel generalizing k with
  | zero => exact ⟨none, k, rfl, hroom⟩
  | succ fuel ih =>
    rw [propagateFrom]
    split
    · exact ⟨none, k, rfl, hroom⟩
    · next l t hnext =>
      obtain ⟨hl, rfl⟩ := Trail.next_eq_some hnext
      obtain ⟨m, hm, -⟩ := h.sound.trail.marked hl
      obtain ⟨list, w, hw, hwroom⟩ := hroom.take (l := -l) (h.sound.trail.named hm)
      have hvisiting := h.visiting hl hw (n := k.propagations + 1)
      obtain ⟨o₁, k₁, hk₁, hroom₁⟩ := visitAll_succeeds hvisiting hwroom
      have hlit : propagateLiteral { k with trail.head := k.trail.head + 1 } l = .ok (o₁, k₁) :=
        bind_eq_ok_iff.2 ⟨_, hw, hk₁⟩
      obtain ⟨-, -, ho⟩ := visitAll_eq_ok hvisiting hk₁
      cases o₁ with
      | some conflict => exact ⟨_, _, bind_eq_ok_iff.2 ⟨_, hlit, rfl⟩, hroom₁⟩
      | none =>
        obtain ⟨o, k', hk', hroom'⟩ := ih ho.1.ready hroom₁
        exact ⟨o, k', bind_eq_ok_iff.2 ⟨_, hlit, hk'⟩, hroom'⟩

theorem propagate_succeeds (h : k.Ready) (hroom : k.watches.Room k.trail.vars) :
    ∃ o k', k.propagate = .ok (o, k') ∧ k'.watches.Room k'.trail.vars :=
  propagateFrom_succeeds h hroom

/-! ## Variables and constraints -/

theorem newVars_succeeds {count : Nat} (hcount : k.trail.vars + count < Event.varLimit) :
    ∃ o k', k.newVars count = .ok (o, k') ∧ k'.watches.Room k'.trail.vars := by
  have hadd : Word.add k.trail.vars count = .ok (k.trail.vars + count) :=
    Word.add_succeeds (Nat.lt_trans hcount (by decide))
  obtain ⟨w, hw, hroom⟩ := Watches.growTo_succeeds k.watches hcount
  obtain ⟨t, ht⟩ := Trail.growTo_succeeds k.trail hcount
  have hvars := (Trail.growTo_eq_ok ht).2.1
  exact ⟨_, _, bind_eq_ok_iff.2 ⟨_, hadd, bind_eq_ok_iff.2 ⟨w, hw, bind_eq_ok_iff.2 ⟨t, ht, rfl⟩⟩⟩,
    hvars.symm ▸ hroom⟩

theorem attach_succeeds (hroom : k.watches.Room k.trail.vars)
    (hc : ∀ l ∈ c.literals, k.trail.Names l) :
    ∃ k', k.attach ref c = .ok k' ∧ k'.watches.Room k'.trail.vars := by
  obtain ⟨w, hw, hwroom⟩ :=
    hroom.addAll (c := ref) fun l hl => hc l (Constraint.mem_literals.2 (Or.inl hl))
  exact ⟨_, bind_eq_ok_iff.2 ⟨w, hw, rfl⟩, hwroom⟩

theorem detach_succeeds (hroom : k.watches.Room k.trail.vars)
    (hc : ∀ l ∈ c.literals, k.trail.Names l) :
    ∃ k', k.detach ref c = .ok k' ∧ k'.watches.Room k'.trail.vars := by
  obtain ⟨w, hw, hwroom⟩ :=
    hroom.removeAll (c := ref) fun l hl => hc l (Constraint.mem_literals.2 (Or.inl hl))
  exact ⟨_, bind_eq_ok_iff.2 ⟨w, hw, rfl⟩, hwroom⟩

end Cdcl.Kernel
