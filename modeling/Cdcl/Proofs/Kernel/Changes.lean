import Cdcl.Proofs.Kernel.Invariant

/-!
# Changes to a kernel

What the operations on the parts of a kernel do to soundness, to the watch lists and to the stability
of propagation: new literals and levels, returns to earlier levels, new and removed constraints, and
forgotten reasons.
-/

namespace Cdcl.Kernel
set_option autoImplicit false

variable {k : Kernel} {n : Nat} {l : Literal} {r : Option ClauseRef} {ref : ClauseRef} {e : Stored}
  {t : Trail} {s : Store} {w : Watches}

theorem Ready.empty : Ready {} where
  sound := by
    refine ⟨.empty, ?_, ?_, ?_, fun hm => absurd hm (by simp [Trail.mark?_empty])⟩
    all_goals simp [Trail.Caught, Store.get?]
  indexed := by
    intro ref l
    rw [Watches.tally_empty]
    simp [Store.watching, Store.get?]
  stable := by
    intro ref e he
    simp [Store.get?] at he

/-! ## Literals and levels -/

theorem Sound.push (h : k.Sound) (hl : k.trail.Names l) (hnone : k.trail.mark? l.var = none)
    (hr : ∀ ref, r = some ref →
      ∃ e, k.store.get? ref = some e ∧ e.constraint.Forces (k.trail.push l r) l) :
    Sound { k with trail := k.trail.push l r } where
  trail := h.trail.push hl hnone
  caught := h.caught
  shape := h.shape
  named := h.named
  reasons := by
    intro v m ref hm href
    rcases Trail.mark?_push (h.trail.covers hl) hnone hm with ⟨rfl, rfl⟩ | ⟨-, hm⟩
    · exact hr ref href
    · obtain ⟨e, he, hforces⟩ := h.reasons hm href
      refine ⟨e, he, hforces.of_marks h.trail (h.trail.push hl hnone) (l := ⟨v, m.negative⟩) hm
        (Trail.mark?_push_of_some hnone hm) rfl fun v n hn _ =>
          ⟨n, Trail.mark?_push_of_some hnone hn, rfl, rfl⟩⟩

theorem Stable.push (h : k.Stable n) (ht : k.trail.Valid) (hl : k.trail.Names l)
    (hnone : k.trail.mark? l.var = none) : Stable { k with trail := k.trail.push l r } n := by
  intro ref e he u hu m hm hneg hp x hx hne
  have hcell := ht.covers hl
  rcases Trail.mark?_push hcell hnone hm with ⟨-, rfl⟩ | ⟨-, hm⟩
  · have hlt : k.trail.literals.size < k.trail.head := hp.1
    have := ht.head_le
    omega
  · obtain ⟨htrue, hlev⟩ := h ref e he u hu m hm hneg hp x hx hne
    obtain ⟨m', hm', hneg'⟩ := ht.holds_iff.1 htrue
    have hpush : (k.trail.push l r).mark? x.var = some m' := Trail.mark?_push_of_some hnone hm'
    refine ⟨Trail.holds_of_mark hpush hneg', ?_⟩
    rw [Trail.levelOf_eq hm'] at hlev
    rw [Trail.levelOf_eq hpush]
    exact hlev

theorem Firm.push (h : k.Firm n) (hl : k.trail.Names l) (hnone : k.trail.mark? l.var = none)
    (hr : ∀ ref, r = some ref →
      ∃ e, k.store.get? ref = some e ∧ e.constraint.Forces (k.trail.push l r) l) :
    Firm { k with trail := k.trail.push l r } n :=
  ⟨h.sound.push hl hnone hr, h.indexed, h.stable.push h.sound.trail hl hnone⟩

theorem Ready.stable_all (h : k.Ready) : k.Stable n := by
  intro ref e he u hu m hm hneg hp
  exact h.stable ref e he u hu m hm hneg
    ⟨hp.1, Nat.lt_succ_of_le (h.sound.trail.level_le hm)⟩

theorem Ready.openLevel (h : k.Ready) (hhead : k.trail.head = k.trail.literals.size) :
    Ready { k with trail := k.trail.openLevel } where
  sound :=
    { trail := h.sound.trail.openLevel
      caught := .openLevel h.sound.trail hhead
      shape := h.sound.shape
      named := h.sound.named
      reasons := by
        intro v m ref hm href
        obtain ⟨e, he, hforces⟩ := h.sound.reasons hm href
        exact ⟨e, he, hforces.of_marks h.sound.trail h.sound.trail.openLevel
          (l := ⟨v, m.negative⟩) hm hm rfl fun _ n hn _ => ⟨n, hn, rfl, rfl⟩⟩ }
  indexed := h.indexed
  stable := h.stable_all

theorem Sound.undoTo (h : k.Sound) : Sound { k with trail := (k.trail.undoTo n).1 } where
  trail := h.trail.undoTo
  caught := h.caught.undoTo h.trail
  shape := h.shape
  named := by
    intro ref e he l hl
    have := h.named he l hl
    unfold Trail.Names at this ⊢
    rwa [Trail.vars_undoTo]
  reasons := by
    intro v m ref hm href
    obtain ⟨hold, hlev⟩ := h.trail.mark?_undoTo.1 hm
    obtain ⟨e, he, hforces⟩ := h.reasons hold href
    refine ⟨e, he, hforces.of_marks h.trail h.trail.undoTo (l := ⟨v, m.negative⟩) hold hm rfl
      fun u i hi hlt => ?_⟩
    have hle := h.trail.level_mono hi hold (Nat.le_of_lt hlt)
    exact ⟨i, h.trail.mark?_undoTo_eq hi (Nat.le_trans hle hlev), rfl, rfl⟩

theorem Stable.undoTo {i : Nat} (h : k.Stable i) (ht : k.trail.Valid) :
    Stable { k with trail := (k.trail.undoTo n).1 } i := by
  intro ref e he u hu m hm hneg hp x hx hne
  obtain ⟨hold, hlev⟩ := ht.mark?_undoTo.1 hm
  have hhead := (ht.lt_head_undoTo hm).1 hp.1
  obtain ⟨htrue, hle⟩ := h ref e he u hu m hold hneg ⟨hhead, hp.2⟩ x hx hne
  have hstays := ht.holds_undoTo.2 ⟨htrue, Nat.le_trans hle hlev⟩
  refine ⟨hstays, ?_⟩
  obtain ⟨m', hm'⟩ := Trail.exists_mark hstays
  rw [Trail.levelOf_eq (ht.mark?_undoTo.1 hm').1] at hle
  rw [Trail.levelOf_eq hm']
  exact hle

/-- After a return to a level below which propagation was complete, a kernel is ready. -/
theorem Firm.undoTo {i : Nat} (h : k.Firm i) (hn : n < i) :
    Ready { k with trail := (k.trail.undoTo n).1 } := by
  refine ⟨h.sound.undoTo, h.indexed, (h.stable.undoTo h.sound.trail).mono ?_⟩
  change (k.trail.undoTo n).1.level + 1 ≤ i
  rw [Trail.level_undoTo]
  omega

/-! ## Stores -/

theorem Firm.same (h : k.Firm n) (hs : k.store.Same s) : Firm { k with store := s } n where
  sound :=
    { trail := h.sound.trail
      caught := h.sound.caught
      shape := by
        intro ref e he
        obtain ⟨e', he', hc⟩ := hs.constraint he
        exact hc ▸ h.sound.shape he'
      named := by
        intro ref e he
        obtain ⟨e', he', hc⟩ := hs.constraint he
        exact hc ▸ h.sound.named he'
      reasons := by
        intro v m ref hm href
        obtain ⟨e, he, hforces⟩ := h.sound.reasons hm href
        obtain ⟨e', he', hb⟩ := hs.get? he
        have hc : e'.constraint = e.constraint := congrArg Prod.fst hb
        exact ⟨e', he', hc ▸ hforces⟩ }
  indexed := by
    intro ref l
    rw [Store.watching_same hs]
    exact h.indexed ref l
  stable := by
    intro ref e he
    obtain ⟨e', he', hc⟩ := hs.constraint he
    exact hc ▸ h.stable ref e' he'

theorem Sound.insert (h : k.Sound) (hc : e.constraint.Valid)
    (hnames : ∀ l ∈ e.constraint.literals, k.trail.Names l) :
    Sound { k with store := (k.store.insert e).2, watches := w } where
  trail := h.trail
  caught := h.caught
  shape := by
    intro ref e' he'
    rw [Store.get?_insert] at he'
    split at he'
    · obtain rfl := Option.some.inj he'
      exact hc
    · exact h.shape he'
  named := by
    intro ref e' he'
    rw [Store.get?_insert] at he'
    split at he'
    · obtain rfl := Option.some.inj he'
      exact hnames
    · exact h.named he'
  reasons := by
    intro v m ref hm href
    obtain ⟨e', he', hforces⟩ := h.reasons hm href
    exact ⟨e', Store.get?_insert_of_some he', hforces⟩

theorem Indexed.insert (h : k.Indexed)
    (hw : k.watches.addAll (k.store.insert e).1 e.constraint.watching = .ok w) :
    Indexed { k with store := (k.store.insert e).2, watches := w } := by
  intro ref l
  rw [Watches.tally_addAll hw, h ref l]
  change _ = ((k.store.insert e).2.watching ref).count l
  rw [Store.watching_insert, show (k.store.insert e).1 = ⟨k.store.slots.size⟩ from rfl]
  by_cases href : ref = ⟨k.store.slots.size⟩
  · subst href
    rw [if_pos rfl, if_pos rfl, Store.watching_of_none Store.get?_size, List.count_nil,
      Nat.zero_add]
  · rw [if_neg href, if_neg href, Nat.add_zero]

/-- A new constraint is stable if it is settled itself. -/
theorem Stable.insert (h : k.Stable n)
    (hown : ∀ u ∈ e.constraint.watching, ∀ m, k.trail.mark? u.var = some m →
      m.negative ≠ u.negative → Passed k.trail n m → ∀ x ∈ e.constraint.watching, x ≠ u →
        k.trail.holds x = true ∧ k.trail.levelOf x.var ≤ m.level) :
    Stable { k with store := (k.store.insert e).2, watches := w } n := by
  intro ref e' he'
  rw [Store.get?_insert] at he'
  split at he'
  · obtain rfl := Option.some.inj he'
    exact hown
  · exact h ref e' he'

/-- A constraint over unassigned literals may join the store. -/
theorem Firm.insert (h : k.Firm n) (hc : e.constraint.Valid)
    (hnames : ∀ l ∈ e.constraint.literals, k.trail.Names l)
    (hopen : ∀ l ∈ e.constraint.literals, k.trail.mark? l.var = none)
    (hw : k.watches.addAll (k.store.insert e).1 e.constraint.watching = .ok w) :
    Firm { k with store := (k.store.insert e).2, watches := w } n := by
  refine ⟨h.sound.insert hc hnames, h.indexed.insert hw, h.stable.insert fun u hu m hm => ?_⟩
  have hnone := hopen u (Constraint.mem_literals.2 (Or.inl hu))
  exact absurd (hnone.symm.trans hm) (by simp)

/-- A constraint that is no reason may leave the store. -/
theorem Firm.erase (h : k.Firm n) (he : k.store.get? ref = some e)
    (hw : k.watches.removeAll ref e.constraint.watching = .ok w)
    (hr : ∀ v m, k.trail.mark? v = some m → m.reason ≠ some ref) :
    Firm { k with store := k.store.erase ref, watches := w } n where
  sound :=
    { trail := h.sound.trail
      caught := h.sound.caught
      shape := by
        intro r e' he'
        rw [Store.get?_erase] at he'
        split at he'
        · exact absurd he' (by simp)
        · exact h.sound.shape he'
      named := by
        intro r e' he'
        rw [Store.get?_erase] at he'
        split at he'
        · exact absurd he' (by simp)
        · exact h.sound.named he'
      reasons := by
        intro v m r hm hreason
        obtain ⟨e', he', hforces⟩ := h.sound.reasons hm hreason
        refine ⟨e', ?_, hforces⟩
        rw [Store.get?_erase, if_neg, he']
        rintro rfl
        exact hr v m hm hreason }
  indexed := by
    intro r l
    rw [Watches.tally_removeAll hw, h.indexed r l]
    change _ = ((k.store.erase ref).watching r).count l
    rw [Store.watching_erase]
    by_cases hrr : r = ref
    · rw [if_pos hrr, if_pos hrr, hrr, Store.watching_eq he, Nat.sub_self, List.count_nil]
    · rw [if_neg hrr, if_neg hrr, Nat.sub_zero]
  stable := by
    intro r e' he'
    rw [Store.get?_erase] at he'
    split at he'
    · exact absurd he' (by simp)
    · exact h.stable r e' he'

/-! ## Reasons and variables -/

theorem Firm.forgets (h : k.Firm n) (ht : k.trail.Forgets t) : Firm { k with trail := t } n where
  sound :=
    { trail := ht.valid h.sound.trail
      caught := by
        intro i hi
        change i ∈ t.limits.toList at hi
        change i ≤ t.head
        rw [ht.head]
        exact h.sound.caught i (ht.limits ▸ hi)
      shape := h.sound.shape
      named := by
        intro ref e he l hl
        have := h.sound.named he l hl
        unfold Trail.Names at this ⊢
        rwa [ht.vars]
      reasons := by
        intro v m ref hm href
        obtain ⟨i, hi, hneg, hlev, hpos, hreason⟩ := ht.old hm
        rcases hreason with hreason | hnone
        · obtain ⟨e, he, hforces⟩ := h.sound.reasons hi (hreason ▸ href)
          rw [hneg] at hforces
          refine ⟨e, he, hforces.of_marks h.sound.trail (ht.valid h.sound.trail)
            (l := ⟨v, m.negative⟩) hi hm hpos.symm fun u j hj _ => ?_⟩
          obtain ⟨j', hj', hneg', -, hpos'⟩ := ht.new hj
          exact ⟨j', hj', hneg', hpos'⟩
        · simp [hnone] at href }
  indexed := h.indexed
  stable := by
    intro ref e he u hu m hm hneg hp x hx hne
    obtain ⟨i, hi, hneg', hlev, hpos, -⟩ := ht.old hm
    have hp' : Passed k.trail n i := by
      obtain ⟨h1, h2⟩ := hp
      have hhead : m.position < k.trail.head := ht.head ▸ h1
      exact ⟨by omega, by omega⟩
    obtain ⟨htrue, hle⟩ := h.stable ref e he u hu i hi (hneg' ▸ hneg) hp' x hx hne
    change t.holds x = true ∧ t.levelOf x.var ≤ m.level
    rw [ht.holds_eq, ht.levelOf_eq, ← hlev]
    exact ⟨htrue, hle⟩

theorem Firm.growTo (h : k.Firm n) {vars : Nat} (hvars : k.trail.vars ≤ vars)
    (ht : k.trail.growTo vars = .ok t) (hw : k.watches.growTo vars = .ok w) :
    Firm { k with trail := t, watches := w } n := by
  obtain ⟨hmark, htvars, hlits, hlimits, hhead, hholds, hlevel, -⟩ := Trail.growTo_eq_ok ht
  have hvalid := h.sound.trail.growTo hvars ht
  refine ⟨⟨hvalid, ?_, h.sound.shape, ?_, ?_⟩, ?_, ?_⟩
  · intro i hi
    change i ∈ t.limits.toList at hi
    change i ≤ t.head
    rw [hhead]
    exact h.sound.caught i (hlimits ▸ hi)
  · intro ref e he l hl
    have := h.sound.named he l hl
    unfold Trail.Names at this ⊢
    rw [htvars]
    omega
  · intro v m ref hm href
    obtain ⟨e, he, hforces⟩ := h.sound.reasons (hmark v ▸ hm) href
    exact ⟨e, he, hforces.of_marks h.sound.trail hvalid (l := ⟨v, m.negative⟩) (hmark v ▸ hm) hm rfl
      fun u i hi _ => ⟨i, (hmark u).trans hi, rfl, rfl⟩⟩
  · intro ref l
    rw [Watches.tally_growTo hw]
    exact h.indexed ref l
  · intro ref e he u hu m hm hneg hp x hx hne
    have hp' : Passed k.trail n m := ⟨hhead ▸ hp.1, hp.2⟩
    change t.holds x = true ∧ t.levelOf x.var ≤ m.level
    rw [hholds, hlevel]
    exact h.stable ref e he u hu m (hmark u.var ▸ hm) hneg hp' x hx hne

/-! ## Variables -/

theorem newVars_eq_ok {k' : Kernel} {first : Option Var} {count : Nat}
    (h : k.newVars count = .ok (first, k')) :
    first = (if count = 0 then none else some ⟨k.trail.vars + 1⟩) ∧
      ∃ t w, k.trail.growTo (k.trail.vars + count) = .ok t ∧
        k.watches.growTo (k.trail.vars + count) = .ok w ∧
        k' = { k with trail := t, watches := w } := by
  obtain ⟨vars, hvars, h⟩ := bind_eq_ok_iff.1 h
  obtain ⟨w, hw, h⟩ := bind_eq_ok_iff.1 h
  obtain ⟨t, ht, h⟩ := bind_eq_ok_iff.1 h
  obtain ⟨rfl, rfl⟩ := Prod.mk.inj (Except.ok.inj h)
  unfold Word.add at hvars
  split at hvars
  · obtain rfl := Except.ok.inj hvars
    exact ⟨rfl, t, w, ht, hw, rfl⟩
  · exact absurd hvars (by simp)

end Cdcl.Kernel
