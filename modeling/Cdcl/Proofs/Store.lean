import Mathlib.Data.List.Nodup
import Cdcl.Store

/-!
# What a store holds after a change

`Store.get?` after each operation. `Store.Alike` says that two stores hold the same constraints up
to the order of their literals, and `Store.Same` that only activities differ. `Store.refs` lists
where the learnt clauses are stored, or the constraints of the formula, and each operation changes
these lists up to their order in the obvious way.
-/

namespace Cdcl
set_option autoImplicit false

/-- A stored constraint apart from the order of its literals and its activity. -/
def Stored.face (e : Stored) : ConstraintKey × Bool × Option ClauseId :=
  (e.constraint.key, e.learnt, e.clauseId)

/-- A stored constraint apart from its activity. -/
def Stored.body (e : Stored) : Constraint × Bool × Option ClauseId :=
  (e.constraint, e.learnt, e.clauseId)

namespace Store

/-- The stores hold the same constraints up to the order of their literals. -/
def Alike (s s' : Store) : Prop :=
  ∀ ref, (s'.get? ref).map Stored.face = (s.get? ref).map Stored.face

/-- The stores hold the same constraints, maybe with other activities. -/
def Same (s s' : Store) : Prop :=
  ∀ ref, (s'.get? ref).map Stored.body = (s.get? ref).map Stored.body

variable {s s' s'' : Store} {ref c : ClauseRef} {e e' : Stored}

/-! ## Operations -/

theorem get_eq_ok : s.get ref = .ok e ↔ s.get? ref = some e := by
  unfold get
  split
  · next e' he => simp [he]
  · next he => simp [he]

theorem lt_size_of_get? (h : s.get? ref = some e) : ref.index < s.slots.size := by
  by_contra hge
  simp [get?, Array.getD_eq_getD_getElem?, Array.getElem?_eq_none (Nat.le_of_not_lt hge)] at h

theorem get?_insert :
    (s.insert e).2.get? c = if c = ⟨s.slots.size⟩ then some e else s.get? c := by
  obtain ⟨i⟩ := c
  simp only [insert, get?, Array.getD_eq_getD_getElem?, Array.getElem?_push, ClauseRef.mk.injEq]
  split <;> simp

theorem get?_size : s.get? ⟨s.slots.size⟩ = none := by
  simp [get?, Array.getD_eq_getD_getElem?]

theorem get?_insert_self : (s.insert e).2.get? ⟨s.slots.size⟩ = some e := by
  rw [get?_insert, if_pos rfl]

/-- No stored constraint is lost when another one is stored. -/
theorem get?_insert_of_some (h : s.get? ref = some e') : (s.insert e).2.get? ref = some e' := by
  rw [get?_insert, if_neg, h]
  rintro rfl
  rw [get?_size] at h
  exact absurd h (by simp)

theorem contains_iff : s.contains ref = true ↔ ∃ e, s.get? ref = some e := Option.isSome_iff_exists

theorem getD_setIfInBounds {o : Option Stored} (h : s.contains ref) :
    (s.slots.setIfInBounds ref.index o).getD c.index none = if c = ref then o else s.get? c := by
  obtain ⟨e, he⟩ := contains_iff.1 h
  have hlt := lt_size_of_get? he
  obtain ⟨i⟩ := c
  obtain ⟨j⟩ := ref
  simp only [get?, Array.getD_eq_getD_getElem?, Array.getElem?_setIfInBounds, ClauseRef.mk.injEq]
  by_cases hij : j = i
  · subst hij
    simp [hlt]
  · simp [hij, Ne.symm hij]

theorem get?_put (h : s.get? ref = some e) :
    (s.put ref e').get? c = if c = ref then some e' else s.get? c := by
  have hin := contains_iff.2 ⟨e, h⟩
  rw [put, dif_pos hin]
  exact getD_setIfInBounds hin

theorem get?_erase : (s.erase ref).get? c = if c = ref then none else s.get? c := by
  unfold erase
  split
  · next hin => exact getD_setIfInBounds hin
  · next hout =>
    split
    · next hc =>
      subst hc
      exact Option.not_isSome_iff_eq_none.1 hout
    · rfl

theorem mem_entries : (ref, e) ∈ s.entries ↔ s.get? ref = some e := by
  obtain ⟨i⟩ := ref
  simp only [entries, List.mem_filterMap, Option.map_eq_some_iff, Prod.exists, Prod.mk.injEq,
    ClauseRef.mk.injEq, get?, Array.getD_eq_getD_getElem?]
  constructor
  · rintro ⟨o, j, hmem, e', rfl, rfl, rfl⟩
    have := (List.mem_zipIdx_iff_getElem?.1 hmem)
    simp only [Array.getElem?_toList] at this
    rw [this, Option.getD_some]
  · intro h
    cases hi : s.slots[i]? with
    | none => simp [hi] at h
    | some o =>
      rw [hi, Option.getD_some] at h
      exact ⟨o, i, List.mem_zipIdx_iff_getElem?.2 (by simpa using hi), e, h, rfl, rfl⟩

theorem get?_of_size_eq_zero (h : s.size = 0) : s.get? ref = none :=
  Option.not_isSome_iff_eq_none.1 fun hin => Nat.ne_of_gt (live_pos hin) h

/-! ## Stores that differ little -/

namespace Alike

theorem refl (s : Store) : s.Alike s := fun _ => rfl

theorem trans (h : s.Alike s') (h' : s'.Alike s'') : s.Alike s'' :=
  fun ref => (h' ref).trans (h ref)

theorem symm (h : s.Alike s') : s'.Alike s := fun ref => (h ref).symm

theorem get? (h : s.Alike s') (he : s.get? ref = some e) :
    ∃ e', s'.get? ref = some e' ∧ e'.face = e.face := by
  have := h ref
  rw [he, Option.map_some] at this
  exact Option.map_eq_some_iff.1 this

theorem put (he : s.get? ref = some e) (hf : e'.face = e.face) : s.Alike (s.put ref e') := by
  intro c
  rw [get?_put he]
  by_cases hc : c = ref
  · rw [if_pos hc, hc, he, Option.map_some, Option.map_some, hf]
  · rw [if_neg hc]

end Alike

namespace Same

theorem refl (s : Store) : s.Same s := fun _ => rfl

theorem trans (h : s.Same s') (h' : s'.Same s'') : s.Same s'' :=
  fun ref => (h' ref).trans (h ref)

theorem symm (h : s.Same s') : s'.Same s := fun ref => (h ref).symm

theorem get? (h : s.Same s') (he : s.get? ref = some e) :
    ∃ e', s'.get? ref = some e' ∧ e'.body = e.body := by
  have := h ref
  rw [he, Option.map_some] at this
  exact Option.map_eq_some_iff.1 this

theorem alike (h : s.Same s') : s.Alike s' := by
  intro ref
  cases he : s.get? ref with
  | none =>
    have := h ref
    rw [he, Option.map_none, Option.map_eq_none_iff] at this
    rw [this]
  | some e =>
    obtain ⟨e', he', hb⟩ := h.get? he
    obtain ⟨hc, hl, hi⟩ : e'.constraint = e.constraint ∧ e'.learnt = e.learnt ∧
        e'.clauseId = e.clauseId := by simpa [Stored.body] using hb
    simp [he', Stored.face, hc, hl, hi]

theorem constraint (h : s.Same s') (he : s'.get? ref = some e) :
    ∃ e', s.get? ref = some e' ∧ e'.constraint = e.constraint := by
  obtain ⟨e', he', hb⟩ := h.symm.get? he
  exact ⟨e', he', congrArg Prod.fst hb⟩

theorem put (he : s.get? ref = some e) (hb : e'.body = e.body) : s.Same (s.put ref e') := by
  intro c
  rw [get?_put he]
  by_cases hc : c = ref
  · rw [if_pos hc, hc, he, Option.map_some, Option.map_some, hb]
  · rw [if_neg hc]

end Same

/-! ## The places of one kind of constraints -/

/-- Where the learnt clauses are stored, or else the constraints of the formula. -/
def refs (s : Store) (learnt : Bool) : List ClauseRef :=
  (s.entries.filter fun x => x.2.learnt == learnt).map Prod.fst

variable {b : Bool}

theorem mem_refs : ref ∈ s.refs b ↔ ∃ e, s.get? ref = some e ∧ e.learnt = b := by
  simp only [refs, List.mem_map, List.mem_filter, Prod.exists, mem_entries, beq_iff_eq]
  constructor
  · rintro ⟨ref, e, he, rfl⟩
    exact ⟨e, he⟩
  · rintro ⟨e, he⟩
    exact ⟨ref, e, he, rfl⟩

/-- What is left of a list keeps its order. -/
theorem filterMap_sublist {α β γ : Type} {f : α → Option β} {g : β → γ} {h : α → γ}
    (hfg : ∀ x y, f x = some y → g y = h x) (xs : List α) :
    ((xs.filterMap f).map g).Sublist (xs.map h) := by
  induction xs with
  | nil => exact List.Sublist.slnil
  | cons x xs ih =>
    cases hf : f x with
    | none =>
      rw [List.filterMap_cons_none hf]
      exact ih.cons _
    | some y =>
      rw [List.filterMap_cons_some hf, List.map_cons, List.map_cons, hfg x y hf]
      exact ih.cons_cons _

theorem nodup_entries (s : Store) : (s.entries.map Prod.fst).Nodup := by
  have hsublist : (s.entries.map Prod.fst).Sublist
      (s.slots.toList.zipIdx.map fun x => (⟨x.2⟩ : ClauseRef)) := by
    refine filterMap_sublist (fun x y hy => ?_) _
    obtain ⟨e, -, rfl⟩ := Option.map_eq_some_iff.1 hy
    rfl
  refine List.Nodup.sublist hsublist ?_
  have hplaces : (s.slots.toList.zipIdx.map fun x => (⟨x.2⟩ : ClauseRef)) =
      (List.range' 0 s.slots.toList.length).map ClauseRef.mk := by
    rw [← List.zipIdx_map_snd, List.map_map]
    rfl
  rw [hplaces]
  exact List.Nodup.map (fun _ _ h => ClauseRef.mk.inj h) (List.nodup_range' 1)

theorem nodup_refs (s : Store) (b : Bool) : (s.refs b).Nodup :=
  s.nodup_entries.sublist (List.Sublist.map _ List.filter_sublist)

theorem size_eq_length (s : Store) : s.size = s.entries.length := by
  have hcount : ∀ (slots : List (Option Stored)) n, slots.countP Option.isSome =
      ((slots.zipIdx n).filterMap fun x => x.1.map fun e => ((⟨x.2⟩ : ClauseRef), e)).length := by
    intro slots
    induction slots with
    | nil => exact fun _ => rfl
    | cons slot slots ih =>
      intro n
      cases slot with
      | none => simpa using ih (n + 1)
      | some e => simpa using ih (n + 1)
  exact s.counted.trans (hcount s.slots.toList 0)

/-- Every stored constraint is of one kind. -/
theorem size_eq_add (s : Store) : s.size = (s.refs false).length + (s.refs true).length := by
  have hsplit := List.length_eq_length_filter_add (l := s.entries) fun x => x.2.learnt == false
  have hnot : (fun x : ClauseRef × Stored => !(x.2.learnt == false)) =
      fun x => x.2.learnt == true := by
    funext x
    cases x.2.learnt <;> rfl
  rw [hnot] at hsplit
  rw [size_eq_length, hsplit, refs, refs, List.length_map, List.length_map]

theorem Alike.refs_perm (h : s.Alike s') : (s'.refs b).Perm (s.refs b) := by
  refine (List.perm_ext_iff_of_nodup (s'.nodup_refs b) (s.nodup_refs b)).2 fun ref => ?_
  have hmove : ∀ {s s' : Store}, s.Alike s' → ref ∈ s.refs b → ref ∈ s'.refs b := by
    intro s s' h hin
    obtain ⟨e, he, hb⟩ := mem_refs.1 hin
    obtain ⟨e', he', hface⟩ := h.get? he
    exact mem_refs.2 ⟨e', he', (congrArg (fun f => f.2.1) hface).trans hb⟩
  exact ⟨hmove h.symm, hmove h⟩

theorem refs_insert : ((s.insert e).2.refs b).Perm
    (if e.learnt = b then ⟨s.slots.size⟩ :: s.refs b else s.refs b) := by
  have hnew : (⟨s.slots.size⟩ : ClauseRef) ∉ s.refs b := by
    intro hin
    obtain ⟨e', he', -⟩ := mem_refs.1 hin
    exact absurd (get?_size.symm.trans he') (by simp)
  have hmem : ∀ ref, ref ∈ (s.insert e).2.refs b ↔
      (ref = ⟨s.slots.size⟩ ∧ e.learnt = b) ∨ ref ∈ s.refs b := by
    intro ref
    rw [mem_refs, mem_refs, get?_insert]
    by_cases href : ref = ⟨s.slots.size⟩
    · subst href
      rw [if_pos rfl, get?_size]
      simp
    · rw [if_neg href]
      simp [href]
  by_cases hb : e.learnt = b
  · rw [if_pos hb]
    refine (List.perm_ext_iff_of_nodup (nodup_refs _ b)
      (List.nodup_cons.2 ⟨hnew, s.nodup_refs b⟩)).2 fun ref => ?_
    rw [hmem, List.mem_cons, and_iff_left hb]
  · rw [if_neg hb]
    refine (List.perm_ext_iff_of_nodup (nodup_refs _ b) (s.nodup_refs b)).2 fun ref => ?_
    rw [hmem]
    exact or_iff_right fun h => hb h.2

theorem mem_refs_erase : c ∈ (s.erase ref).refs b ↔ c ∈ s.refs b ∧ c ≠ ref := by
  rw [mem_refs, mem_refs, get?_erase]
  by_cases hc : c = ref
  · simp [hc]
  · simp [hc]

theorem refs_erase : ((s.erase ref).refs b).Perm ((s.refs b).erase ref) := by
  refine (List.perm_ext_iff_of_nodup (nodup_refs _ b) ((s.nodup_refs b).erase ref)).2 fun c => ?_
  rw [mem_refs_erase, (s.nodup_refs b).mem_erase_iff, and_comm]

/-- How many constraints of the formula are left when a constraint is removed. -/
theorem length_refs_erase (he : s.get? ref = some e) : ((s.erase ref).refs false).length =
    if e.learnt then (s.refs false).length else (s.refs false).length - 1 := by
  rw [refs_erase.length_eq, List.length_erase]
  cases hlearnt : e.learnt with
  | true =>
    have hno : ref ∉ s.refs false := by
      simp [mem_refs, he, hlearnt]
    rw [if_neg hno, if_pos rfl]
  | false =>
    have hin : ref ∈ s.refs false := mem_refs.2 ⟨e, he, hlearnt⟩
    rw [if_pos hin, if_neg (by simp)]

end Store
end Cdcl
