import Cdcl.Proofs.Constraint.Reaction
import Cdcl.Proofs.Store
import Cdcl.Kernel

/-!
# Propagation only permutes literals

A visited constraint may change the order of its literals, and propagation does nothing else to the
store (`Kernel.propagate_permutes`). So the key of every stored constraint stays the same.
-/

namespace Cdcl
set_option autoImplicit false

/-- At most the order of the literals differs. -/
structure Stored.Permutes (e e' : Stored) : Prop where
  degree : e'.constraint.degree = e.constraint.degree
  literals : e'.constraint.literals.Perm e.constraint.literals
  rest : e' = { e with constraint := e'.constraint }

/-- The same constraints are stored, maybe with their literals in another order. -/
def Store.Permutes (s s' : Store) : Prop :=
  ∀ ref, Option.Rel Stored.Permutes (s.get? ref) (s'.get? ref)

section
variable {e e' e'' : Stored} {s s' s'' : Store} {ref : ClauseRef}

theorem Stored.Permutes.refl (e : Stored) : e.Permutes e := ⟨rfl, .refl _, rfl⟩

theorem Stored.Permutes.trans (h : e.Permutes e') (h' : e'.Permutes e'') : e.Permutes e'' where
  degree := h'.degree.trans h.degree
  literals := h'.literals.trans h.literals
  rest := by rw [h'.rest, h.rest]

/-- The key still matches. -/
theorem Stored.Permutes.face (h : e.Permutes e') : e'.face = e.face := by
  unfold Stored.face
  rw [Constraint.key_eq_of_perm h.degree h.literals, h.rest]

theorem Store.Permutes.refl (s : Store) : s.Permutes s := by
  intro ref
  cases s.get? ref with
  | none => exact .none
  | some e => exact .some (Stored.Permutes.refl e)

theorem Store.Permutes.trans (h : s.Permutes s') (h' : s'.Permutes s'') : s.Permutes s'' := by
  intro ref
  have h₁ := h ref
  have h₂ := h' ref
  revert h₁ h₂
  cases s.get? ref <;> cases s'.get? ref <;> cases s''.get? ref <;> intro h₁ h₂ <;>
    first | exact .none | cases h₁ <;> cases h₂
  next he he' => exact .some (he.trans he')

theorem Store.Permutes.alike (h : s.Permutes s') : s.Alike s' := by
  intro ref
  have href := h ref
  revert href
  cases s.get? ref <;> cases s'.get? ref <;> intro href <;> cases href
  · rfl
  · next he => exact congrArg some he.face

theorem Store.Permutes.put (he : s.get? ref = some e) (h : e.Permutes e') :
    s.Permutes (s.put ref e') := by
  intro c
  rw [Store.get?_put he]
  split
  · next hc => exact hc ▸ he ▸ .some h
  · exact Store.Permutes.refl s c

end

namespace Kernel

variable {k k' : Kernel} {ref : ClauseRef} {refs : List ClauseRef} {fals l : Literal} {ok : Bool}
  {o : Option ClauseRef}

/-- What a reaction asks for does not concern the store. -/
theorem store_apply {reaction : Reaction} (h : k.apply ref fals reaction = .ok (ok, k')) :
    k'.store = k.store := by
  cases reaction with
  | keep | move m | conflict =>
    obtain ⟨w, -, h⟩ := bind_eq_ok_iff.1 h
    exact (Prod.mk.inj (Except.ok.inj h)).2 ▸ rfl
  | force ls =>
    obtain ⟨w, -, h⟩ := bind_eq_ok_iff.1 h
    obtain ⟨⟨ok', t⟩, -, h⟩ := bind_eq_ok_iff.1 h
    exact (Prod.mk.inj (Except.ok.inj h)).2 ▸ rfl

/-- A visit permutes the literals of the visited constraint. -/
theorem visit_permutes (h : k.visit ref fals = .ok (ok, k')) : k.store.Permutes k'.store := by
  obtain ⟨e, he, h⟩ := bind_eq_ok_iff.1 h
  obtain ⟨⟨c, reaction⟩, hreact, h⟩ := bind_eq_ok_iff.1 h
  obtain ⟨hdegree, hperm⟩ := Constraint.react_perm hreact
  rw [store_apply h]
  exact Store.Permutes.put (Store.get_eq_ok.1 he) ⟨hdegree, hperm, rfl⟩

theorem visitAll_permutes (h : visitAll fals refs k = .ok (o, k')) :
    k.store.Permutes k'.store := by
  induction refs generalizing k with
  | nil =>
    obtain ⟨-, rfl⟩ := Prod.mk.inj (Except.ok.inj h)
    exact .refl _
  | cons ref refs ih =>
    obtain ⟨⟨ok, k₁⟩, hk₁, h⟩ := bind_eq_ok_iff.1 h
    refine (visit_permutes hk₁).trans ?_
    cases ok with
    | true => exact ih h
    | false =>
      obtain ⟨w, -, h⟩ := bind_eq_ok_iff.1 h
      obtain ⟨-, rfl⟩ := Prod.mk.inj (Except.ok.inj h)
      exact .refl _

theorem propagateFrom_permutes {fuel : Nat} (h : propagateFrom fuel k = .ok (o, k')) :
    k.store.Permutes k'.store := by
  induction fuel generalizing k with
  | zero =>
    obtain ⟨-, rfl⟩ := Prod.mk.inj (Except.ok.inj h)
    exact .refl _
  | succ fuel ih =>
    rw [propagateFrom] at h
    split at h
    · obtain ⟨-, rfl⟩ := Prod.mk.inj (Except.ok.inj h)
      exact .refl _
    · obtain ⟨⟨o₁, k₁⟩, hk₁, h⟩ := bind_eq_ok_iff.1 h
      obtain ⟨⟨refs, w⟩, -, hk₁⟩ := bind_eq_ok_iff.1 hk₁
      have h₁ := visitAll_permutes hk₁
      cases o₁ with
      | some ref =>
        obtain ⟨-, rfl⟩ := Prod.mk.inj (Except.ok.inj h)
        exact h₁
      | none => exact h₁.trans (ih h)

theorem propagate_permutes (h : k.propagate = .ok (o, k')) : k.store.Permutes k'.store :=
  propagateFrom_permutes h

end Kernel

end Cdcl
