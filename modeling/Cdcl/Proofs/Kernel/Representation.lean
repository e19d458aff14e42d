import Cdcl.Proofs.Kernel.Changes
import Cdcl.Proofs.Kernel.Meaning

/-!
# What a kernel keeps of a formula

An assignment `Meets` a kernel if the stored constraints of the formula hold and the literals fixed
at level 0 are true. `Kernel.Represents` says that these are the models of the formula, and that all
stored constraints follow from it. `Kernel.Follows` is what all changes have in common that neither
add nor remove a constraint nor fix a literal on their own account; they keep what is represented
(`Represents.of_follows`).
-/

namespace Cdcl
set_option autoImplicit false

/-- Every literal fixed at level 0 stays so. -/
def Trail.Retains (t t' : Trail) : Prop :=
  ∀ l, t.holds l = true → t.levelOf l.var = 0 → t'.holds l = true ∧ t'.levelOf l.var = 0

namespace Trail

variable {t t' : Trail} {a : Assignment} {l : Literal} {r : Option ClauseRef} {n : Nat}

theorem Retains.of_eq (hholds : ∀ l, t'.holds l = t.holds l)
    (hlevel : ∀ v, t'.levelOf v = t.levelOf v) : t.Retains t' :=
  fun l hl hlev => ⟨(hholds l).trans hl, (hlevel l.var).trans hlev⟩

theorem Retains.refl (t : Trail) : t.Retains t := .of_eq (fun _ => rfl) fun _ => rfl

theorem Retains.of_extends (h : t.Extends t') : t.Retains t' :=
  fun _ hl hlev => ⟨h.holds hl, (h.levelOf hl).trans hlev⟩

theorem Retains.of_forgets (h : t.Forgets t') : t.Retains t' :=
  .of_eq (fun _ => h.holds_eq) fun _ => h.levelOf_eq

theorem Retains.push (hcell : t.Covers l.var) (hnone : t.mark? l.var = none) :
    t.Retains (t.push l r) := by
  intro k hk hlev
  obtain ⟨m, hm⟩ := exists_mark hk
  refine ⟨(holds_push hcell).2 (Or.inr hk), ?_⟩
  rw [levelOf_eq (mark?_push_of_some hnone hm), ← levelOf_eq hm]
  exact hlev

theorem Retains.undoTo (h : t.Valid) : t.Retains (t.undoTo n).1 := by
  intro l hl hlev
  obtain ⟨m, hm⟩ := exists_mark hl
  rw [levelOf_eq hm] at hlev
  have hm' := h.mark?_undoTo_eq hm (n := n) (hlev ▸ Nat.zero_le n)
  exact ⟨h.holds_undoTo.2 ⟨hl, (levelOf_eq hm).trans hlev ▸ Nat.zero_le n⟩,
    (levelOf_eq hm').trans hlev⟩

theorem Retains.trans {t'' : Trail} (h : t.Retains t') (h' : t'.Retains t'') : t.Retains t'' := by
  intro l hl hlev
  obtain ⟨hl', hlev'⟩ := h l hl hlev
  exact h' l hl' hlev'

theorem Retains.respectsRoot (h : t.Retains t') (ha : a.RespectsRoot t') : a.RespectsRoot t :=
  fun l hl hlev => ha l (h l hl hlev).1 (h l hl hlev).2

theorem respectsRoot_push (hcell : t.Covers l.var) (hnone : t.mark? l.var = none)
    (hlev : t.level = 0) :
    a.RespectsRoot (t.push l r) ↔ a.RespectsRoot t ∧ a.makes l = true := by
  constructor
  · intro ha
    refine ⟨(Retains.push hcell hnone).respectsRoot ha, ha l ((holds_push hcell).2 (Or.inl rfl)) ?_⟩
    rw [levelOf_eq (mark?_push_self hcell hnone)]
    exact hlev
  · rintro ⟨ha, hl⟩ k hk hklev
    rcases (holds_push hcell).1 hk with rfl | hold
    · exact hl
    · obtain ⟨m, hm⟩ := exists_mark hold
      rw [levelOf_eq (mark?_push_of_some hnone hm)] at hklev
      exact ha k hold ((levelOf_eq hm).trans hklev)

end Trail

namespace Kernel

variable {k k' : Kernel} {F F' : Formula} {a : Assignment} {l : Literal} {ref : ClauseRef}
  {e : Stored} {d : Demand} {t : Trail} {s : Store} {w : Watches} {r : Option ClauseRef} {n : Nat}

/-- The stored constraints of the formula hold and the literals fixed at level 0 are true. -/
structure Meets (a : Assignment) (k : Kernel) : Prop where
  given : ∀ ref e, k.store.get? ref = some e → e.learnt = false → e.constraint.demand.Holds a
  root : a.RespectsRoot k.trail

/-- The models of a formula are the assignments that meet the kernel, and the stored constraints
follow from the formula. -/
structure Represents (k : Kernel) (F : Formula) : Prop where
  meets : ∀ a, F.Holds a ↔ Meets a k
  satisfied : ∀ a, F.Holds a → Satisfied k.store a

/-- The same constraints are stored up to the order of their literals, no fixed literal is lost, and
what is newly fixed follows from the constraints. -/
structure Follows (k k' : Kernel) : Prop where
  alike : k.store.Alike k'.store
  retains : k.trail.Retains k'.trail
  root : ∀ a, Satisfied k.store a → a.RespectsRoot k.trail → a.RespectsRoot k'.trail

/-! ## Changes that keep what is represented -/

theorem Follows.refl (k : Kernel) : k.Follows k :=
  ⟨Store.Alike.refl _, .refl _, fun _ _ ha => ha⟩

theorem Follows.trans {k'' : Kernel} (h : k.Follows k') (h' : k'.Follows k'') : k.Follows k'' :=
  ⟨h.alike.trans h'.alike, h.retains.trans h'.retains,
    fun a hs ha => h'.root a (hs.of_alike h.alike) (h.root a hs ha)⟩

theorem Follows.of_extends (ht : k.trail.Extends k'.trail) (hs : k.store.Alike k'.store)
    (hk : k'.Sound) : k.Follows k' where
  alike := hs
  retains := Trail.Retains.of_extends ht
  root := by
    intro a ha hroot
    refine hk.respectsRoot (ha.of_alike hs) fun v m hm hlev hreason => ?_
    rcases ht.old_or_fresh hm with hold | ⟨-, hsome, -⟩
    · exact hroot ⟨v, m.negative⟩ (Trail.holds_mk hold) ((Trail.levelOf_eq hold).trans hlev)
    · simp [hreason] at hsome

/-- A trail that fixes the same literals tells the same. -/
theorem Follows.of_retains (h : k.trail.Retains t) (h' : t.Retains k.trail) :
    k.Follows { k with trail := t } :=
  ⟨Store.Alike.refl _, h, fun _ _ => h'.respectsRoot⟩

theorem Follows.undoTo (h : k.trail.Valid) :
    k.Follows { k with trail := (k.trail.undoTo n).1 } :=
  of_retains (Trail.Retains.undoTo h) fun l hl hlev => by
    have hl' := (h.holds_undoTo.1 hl).1
    obtain ⟨m, hm⟩ := Trail.exists_mark hl
    rw [Trail.levelOf_eq hm] at hlev
    exact ⟨hl', (Trail.levelOf_eq (h.mark?_undoTo.1 hm).1).trans hlev⟩

theorem Follows.openLevel : k.Follows { k with trail := k.trail.openLevel } :=
  of_retains (.of_eq (fun _ => rfl) fun _ => rfl) (.of_eq (fun _ => rfl) fun _ => rfl)

theorem Follows.push (hcell : k.trail.Covers l.var)
    (hnone : k.trail.mark? l.var = none) (hlev : k.trail.level ≠ 0) :
    k.Follows { k with trail := k.trail.push l r } := by
  refine of_retains (Trail.Retains.push hcell hnone) fun u hu hzero => ?_
  rcases (Trail.holds_push hcell).1 hu with rfl | hold
  · rw [Trail.levelOf_eq (Trail.mark?_push_self hcell hnone)] at hzero
    exact absurd hzero hlev
  · obtain ⟨m, hm⟩ := Trail.exists_mark hold
    rw [Trail.levelOf_eq (Trail.mark?_push_of_some hnone hm), ← Trail.levelOf_eq hm] at hzero
    exact ⟨hold, hzero⟩

theorem Follows.forgets (h : k.trail.Forgets t) : k.Follows { k with trail := t } :=
  of_retains (Trail.Retains.of_forgets h)
    (.of_eq (fun _ => h.holds_eq.symm) fun _ => h.levelOf_eq.symm)

theorem Follows.same (h : k.store.Same s) : k.Follows { k with store := s } :=
  ⟨h.alike, .refl _, fun _ _ ha => ha⟩

theorem Follows.growTo (h : k.trail.growTo n = .ok t) :
    k.Follows { k with trail := t, watches := w } := by
  obtain ⟨-, -, -, -, -, hholds, hlevel, -⟩ := Trail.growTo_eq_ok h
  have hback : t.Retains k.trail := .of_eq (fun l => (hholds l).symm) fun v => (hlevel v).symm
  exact ⟨Store.Alike.refl _, .of_eq hholds hlevel, fun _ _ => hback.respectsRoot⟩

theorem Represents.of_follows (h : k.Represents F) (hf : k.Follows k') : k'.Represents F where
  meets := by
    intro a
    constructor
    · intro ha
      have hs := h.satisfied a ha
      exact ⟨fun ref e he _ => hs.of_alike hf.alike ref e he,
        hf.root a hs ((h.meets a).1 ha).root⟩
    · intro ha
      refine (h.meets a).2 ⟨fun ref e he hgiven => ?_, hf.retains.respectsRoot ha.root⟩
      obtain ⟨e', he', hface⟩ := hf.alike.get? he
      have hkey : e'.constraint.key = e.constraint.key := congrArg Prod.fst hface
      have hlearnt : e'.learnt = e.learnt := congrArg (fun f => f.2.1) hface
      exact (Constraint.holds_of_key_eq hkey a).1 (ha.given ref e' he' (hlearnt.trans hgiven))
  satisfied := fun a ha => (h.satisfied a ha).of_alike hf.alike

/-! ## Additions and removals -/

theorem Represents.congr (h : k.Represents F) (hF : ∀ a, F'.Holds a ↔ F.Holds a) :
    k.Represents F' :=
  ⟨fun a => (hF a).trans (h.meets a), fun a ha => h.satisfied a ((hF a).1 ha)⟩

theorem Represents.empty : Represents {} [] where
  meets := by
    intro a
    refine ⟨fun _ => ⟨fun ref e he => ?_, fun l hl => ?_⟩, fun _ d hd => absurd hd List.not_mem_nil⟩
    · simp [Store.get?] at he
    · simp [Trail.holds, LiteralMap.getD, LiteralMap.empty] at hl
  satisfied := by
    intro a _ ref e he
    simp [Store.get?] at he

/-- A demand that holds anyway adds nothing. -/
theorem Represents.add (h : k.Represents F) (hd : ∀ a, Meets a k → d.Holds a) :
    k.Represents (F ++ [d]) where
  meets := by
    intro a
    rw [Formula.holds_concat, h.meets a]
    exact and_iff_left_of_imp (hd a)
  satisfied := fun a ha => h.satisfied a (Formula.holds_concat.1 ha).1

theorem Represents.push (h : k.Represents F) (hlev : k.trail.level = 0)
    (hcell : k.trail.Covers l.var) (hnone : k.trail.mark? l.var = none)
    (hF : ∀ a, F'.Holds a ↔ F.Holds a ∧ a.makes l = true) :
    Represents { k with trail := k.trail.push l r } F' where
  meets := by
    intro a
    rw [hF a, h.meets a]
    constructor
    · rintro ⟨ha, hl⟩
      exact ⟨ha.given, (Trail.respectsRoot_push hcell hnone hlev).2 ⟨ha.root, hl⟩⟩
    · intro ha
      obtain ⟨hroot, hl⟩ := (Trail.respectsRoot_push hcell hnone hlev).1 ha.root
      exact ⟨⟨ha.given, hroot⟩, hl⟩
  satisfied := fun a ha => h.satisfied a ((hF a).1 ha).1

theorem satisfied_insert :
    Satisfied (s.insert e).2 a ↔ Satisfied s a ∧ e.constraint.demand.Holds a := by
  constructor
  · intro ha
    exact ⟨fun ref e' he' => ha ref e' (Store.get?_insert_of_some he'),
      ha ⟨s.slots.size⟩ e Store.get?_insert_self⟩
  · rintro ⟨ha, hd⟩ ref e' he'
    rw [Store.get?_insert] at he'
    split at he'
    · obtain rfl := Option.some.inj he'
      exact hd
    · exact ha ref e' he'

theorem meets_insert (hlearnt : e.learnt = false) :
    Meets a { k with store := (k.store.insert e).2, watches := w } ↔
      Meets a k ∧ e.constraint.demand.Holds a := by
  constructor
  · intro ha
    exact ⟨⟨fun ref e' he' => ha.given ref e' (Store.get?_insert_of_some he'), ha.root⟩,
      ha.given ⟨k.store.slots.size⟩ e Store.get?_insert_self hlearnt⟩
  · rintro ⟨ha, hd⟩
    refine ⟨fun ref e' he' => ?_, ha.root⟩
    have hget := Store.get?_insert.symm.trans he'
    split at hget
    · obtain rfl := Option.some.inj hget
      exact fun _ => hd
    · exact ha.given ref e' hget

theorem meets_insert_learnt (hlearnt : e.learnt = true) :
    Meets a { k with store := (k.store.insert e).2, watches := w } ↔ Meets a k := by
  constructor
  · intro ha
    exact ⟨fun ref e' he' => ha.given ref e' (Store.get?_insert_of_some he'), ha.root⟩
  · intro ha
    refine ⟨fun ref e' he' hgiven => ?_, ha.root⟩
    have hget := Store.get?_insert.symm.trans he'
    split at hget
    · obtain rfl := Option.some.inj hget
      simp [hgiven] at hlearnt
    · exact ha.given ref e' hget hgiven

/-- A demand is stored as a constraint that says the same under the literals fixed so far. -/
theorem Represents.insert (h : k.Represents F) (hlearnt : e.learnt = false)
    (hd : ∀ a, a.RespectsRoot k.trail → (d.Holds a ↔ e.constraint.demand.Holds a)) :
    Represents { k with store := (k.store.insert e).2, watches := w } (F ++ [d]) where
  meets := by
    intro a
    rw [meets_insert hlearnt, Formula.holds_concat, h.meets a]
    exact and_congr_right fun ha => hd a ha.root
  satisfied := by
    intro a ha
    obtain ⟨hF, hd'⟩ := Formula.holds_concat.1 ha
    exact satisfied_insert.2 ⟨h.satisfied a hF, (hd a ((h.meets a).1 hF).root).1 hd'⟩

/-- A clause that follows from the formula is stored. -/
theorem Represents.insert_learnt (h : k.Represents F) (hlearnt : e.learnt = true)
    (he : ∀ a, F.Holds a → e.constraint.demand.Holds a) :
    Represents { k with store := (k.store.insert e).2, watches := w } F where
  meets := fun a => (h.meets a).trans (meets_insert_learnt hlearnt).symm
  satisfied := fun a ha => satisfied_insert.2 ⟨h.satisfied a ha, he a ha⟩

/-- A constraint leaves that was learnt, or that the literals fixed at level 0 make true. -/
theorem Represents.erase (h : k.Represents F) (he : k.store.get? ref = some e)
    (hgone : e.learnt = false → ∀ a, a.RespectsRoot k.trail → e.constraint.demand.Holds a) :
    Represents { k with store := k.store.erase ref, watches := w } F where
  meets := by
    intro a
    rw [h.meets a]
    constructor
    · intro ha
      refine ⟨fun c e' he' => ?_, ha.root⟩
      have hget := Store.get?_erase.symm.trans he'
      split at hget
      · simp at hget
      · exact ha.given c e' hget
    · intro ha
      refine ⟨fun c e' he' hgiven => ?_, ha.root⟩
      by_cases hc : c = ref
      · obtain rfl := Option.some.inj (he.symm.trans (hc ▸ he'))
        exact hgone hgiven a ha.root
      · exact ha.given c e' (Store.get?_erase.trans ((if_neg hc).trans he')) hgiven
  satisfied := by
    intro a ha c e' he'
    have hget := Store.get?_erase.symm.trans he'
    split at hget
    · simp at hget
    · exact h.satisfied a ha c e' hget

/-! ## Refutations -/

/-- A constraint that is violated at level 0 refutes the formula. -/
theorem Represents.not_holds (h : k.Represents F) (hk : k.Clash ref) (hlev : k.trail.level = 0) :
    ¬ F.Holds a := by
  intro ha
  exact hk.not_satisfied (hk.sound.trail.respects_of_root hlev ((h.meets a).1 ha).root)
    (h.satisfied a ha)

end Kernel
end Cdcl
