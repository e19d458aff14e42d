import Cdcl.Proofs.Certificate
import Cdcl.Proofs.Progress.Analysis

/-!
# Recording does not get stuck

A certificate is `Complete` for a trail if it knows the unit clause of every variable fixed at level 0.
Then every clause can be recorded. Propagation at level 0 fixes variables whose units are not known
yet; these have reasons, and the other literals of a reason were fixed before, so their units can be
derived in the order of the trail (`Complete.recordRoot`).
-/

namespace Cdcl
set_option autoImplicit false

namespace Certificate

variable {c c' : Certificate} {t t' : Trail} {s : Store} {k : Kernel} {id start : ClauseId}
  {l : Literal} {ls : List Literal} {v : Var} {vs : List Var} {ref : ClauseRef} {e : Stored}
  {steps : List ResolutionStep} {n vars : Nat}

/-- The unit clause of a variable is known. -/
def Knows (c : Certificate) (v : Var) : Prop := ∃ id, c.units.getD v none = some id

/-- The certificate knows the units of all variables fixed at level 0. -/
structure Complete (c : Certificate) (t : Trail) : Prop where
  room : c.units.Room t.vars
  cursor : ∀ i < c.cursor, ∃ v m, t.mark? v = some m ∧ m.level = 0 ∧ m.position = i
  known : ∀ v m, t.mark? v = some m → m.level = 0 → c.Knows v

/-- No unit is forgotten, and the cursor stays. -/
structure Grows (c c' : Certificate) : Prop where
  size : c'.units.cells.size = c.units.cells.size
  cursor : c'.cursor = c.cursor
  known : ∀ v, c.Knows v → c'.Knows v

theorem Grows.refl (c : Certificate) : c.Grows c := ⟨rfl, rfl, fun _ h => h⟩

theorem Grows.trans {c'' : Certificate} (h : c.Grows c') (h' : c'.Grows c'') : c.Grows c'' :=
  ⟨h'.size.trans h.size, h'.cursor.trans h.cursor, fun v hv => h'.known v (h.known v hv)⟩

theorem grows_put (hv : v.id < c.units.cells.size) :
    c.Grows { c with units := c.units.put v (some id) } := by
  refine ⟨VarMap.size_put, rfl, fun w ⟨i, hi⟩ => ?_⟩
  by_cases hw : w = v
  · subst hw
    exact ⟨id, VarMap.getD_put_self hv⟩
  · exact ⟨i, (VarMap.getD_put_of_ne hw).trans hi⟩

theorem Complete.grows (h : c.Complete t) (hc : c.Grows c') : c'.Complete t where
  room := h.room.of_size (Nat.le_of_eq hc.size.symm)
  cursor := hc.cursor.symm ▸ h.cursor
  known := fun v m hm hzero => hc.known v (h.known v m hm hzero)

theorem Complete.of_sameRoot (h : c.Complete t) (hvars : t'.vars = t.vars) (ht : t.SameRoot t') :
    c.Complete t' where
  room := hvars.symm ▸ h.room
  cursor := by
    intro i hi
    obtain ⟨v, m, hm, hzero, rfl⟩ := h.cursor i hi
    obtain ⟨m', hm', hzero', hpos⟩ := ht.kept v m hm hzero
    exact ⟨v, m', hm', hzero', hpos⟩
  known := by
    intro v m hm hzero
    obtain ⟨m', hm', hzero'⟩ := ht.old v m hm hzero
    exact h.known v m' hm' hzero'

theorem complete_empty : Complete {} {} where
  room := by
    rintro v ⟨h1, h2⟩
    change v.id ≤ 0 at h2
    omega
  cursor := fun i hi => absurd hi (Nat.not_lt_zero i)
  known := fun v m hm => by simp [Trail.mark?_empty] at hm

/-- A certificate can be enlarged for fresh variables, and stays complete if it was. -/
theorem growTo_succeeds (c : Certificate) (hvars : n < Event.varLimit) (ht : t.growTo n = .ok t') :
    ∃ c', c.growTo t'.vars = .ok c' ∧ (c.Complete t → c'.Complete t') := by
  obtain ⟨hmarks, hn, -⟩ := Trail.growTo_eq_ok ht
  obtain ⟨units, hunits, hroom⟩ :=
    VarMap.grow_succeeds c.units none (hn.symm ▸ hvars) (show cellWidth ≤ 24 by decide)
  refine ⟨_, bind_eq_ok_iff.2 ⟨_, hunits, rfl⟩, fun h => ⟨hroom, fun i hi => ?_, fun v m hm hzero => ?_⟩⟩
  · obtain ⟨v, m, hm, hrest⟩ := h.cursor i hi
    exact ⟨v, m, (hmarks v).trans hm, hrest⟩
  · obtain ⟨id, hid⟩ := h.known v m ((hmarks v).symm.trans hm) hzero
    exact ⟨id, ((VarMap.grow_eq_ok hunits).1 v).trans hid⟩

/-- A new certificate is complete for a trail without literals. -/
theorem complete_growTo (hvars : t.vars < Event.varLimit) (hnone : ∀ v, t.mark? v = none)
    (hc : Certificate.growTo {} t.vars = .ok c) : c.Complete t := by
  obtain ⟨units, hunits, hroom⟩ := VarMap.grow_succeeds (VarMap.empty : VarMap (Option ClauseId))
    none hvars (show cellWidth ≤ 24 by decide)
  obtain ⟨_, hsame, hc⟩ := bind_eq_ok_iff.1 hc
  obtain rfl := Except.ok.inj (hunits.symm.trans hsame)
  obtain rfl := Except.ok.inj hc
  exact ⟨hroom, fun i hi => absurd hi (Nat.not_lt_zero i), fun v m hm =>
    absurd ((hnone v).symm.trans hm) (by simp)⟩

end Certificate

/-! ## Writing records -/

namespace Log

theorem resolveAll_succeeds {g : Log} {steps : List ResolutionStep} (h : g.start.isSome = true) :
    ∃ g', g.resolveAll steps = .ok g' ∧ g'.nextId = g.nextId ∧ g'.start = g.start ∧
      g'.steps.toList = g.steps.toList ++ steps := by
  induction steps generalizing g with
  | nil => exact ⟨g, rfl, rfl, rfl, (List.append_nil _).symm⟩
  | cons s steps ih =>
    obtain ⟨v, next⟩ := s
    have hresolve : g.resolve next v = .ok { g with steps := g.steps.push (v, next) } :=
      bind_eq_ok_iff.2 ⟨(), require_eq_ok_iff.2 h, rfl⟩
    obtain ⟨g', hg', hnext, hstart, hsteps⟩ :=
      ih (g := { g with steps := g.steps.push (v, next) }) h
    refine ⟨g', bind_eq_ok_iff.2 ⟨_, hresolve, hg'⟩, hnext, hstart, ?_⟩
    rw [hsteps, Array.toList_push, List.append_assoc, List.singleton_append]

/-- A chain over clauses that were recorded before can be written. -/
theorem derive_succeeds {g : Log} {start : ClauseId} {steps : List ResolutionStep}
    (hstart : start ≤ g.nextId) (hsteps : ∀ s ∈ steps, s.2 ≤ g.nextId) :
    ∃ id g', g.derive start steps = .ok (id, g') := by
  obtain ⟨g₁, hg₁, hnext, hstart₁, hsteps₁⟩ :=
    resolveAll_succeeds (show (g.beginChain start).start.isSome = true from rfl)
  have hlist : g₁.steps.toList = steps := hsteps₁.trans (List.nil_append _)
  obtain ⟨words, hwords⟩ : ∃ words, Event.chainWords g₁.nextId start g₁.steps.toList = .ok words := by
    rw [hlist, hnext]
    exact Event.chainWords_succeeds hstart hsteps
  obtain ⟨id, g', hend⟩ : ∃ id g', g₁.endChain = .ok (id, g') := by
    unfold endChain
    rw [hstart₁]
    dsimp only [beginChain]
    split
    · exact ⟨_, _, rfl⟩
    · exact ⟨_, _, bind_eq_ok_iff.2 ⟨words, hwords, rfl⟩⟩
  exact ⟨id, g', bind_eq_ok_iff.2 ⟨g₁, hg₁, hend⟩⟩

end Log

namespace Certificate

variable {c c' : Certificate} {t : Trail} {s : Store} {k : Kernel} {id start : ClauseId}
  {l : Literal} {ls : List Literal} {v : Var} {vs : List Var} {ref : ClauseRef} {e : Stored}
  {steps : List ResolutionStep} {n vars : Nat} {es : List Event} {q : Checker}

theorem derive_succeeds (hstart : start ≤ c.log.nextId) (hsteps : ∀ s ∈ steps, s.2 ≤ c.log.nextId) :
    ∃ id c', c.derive start steps = .ok (id, c') ∧ c.Grows c' := by
  obtain ⟨id, log, hlog⟩ := Log.derive_succeeds hstart hsteps
  exact ⟨id, _, bind_eq_ok_iff.2 ⟨_, hlog, rfl⟩, rfl, rfl, fun _ h => h⟩

/-- The clauses that a checker shows were recorded before. -/
theorem Backs.lt_nextId (h : c.Backs t s es q) (hq : q.Shows id ls) : id < c.log.nextId :=
  h.accepted.size ▸ hq.lt_size

theorem Backs.units_le (h : c.Backs t s es q) (hid : c.units.getD v none = some id) :
    id ≤ c.log.nextId := by
  obtain ⟨_, -, -, hq⟩ := h.units v id hid
  exact Nat.le_of_lt (h.lt_nextId hq)

theorem idOf_succeeds (h : e.clauseId = some id) : idOf e = .ok id := by
  unfold idOf
  rw [h]

/-! ## Units -/

theorem unitOf_succeeds (hroom : c.units.Room vars) (hv : 1 ≤ v.id ∧ v.id ≤ vars)
    (hknown : c.Knows v) : ∃ id, c.unitOf v = .ok id := by
  obtain ⟨id, hid⟩ := hknown
  obtain ⟨o, ho⟩ := VarMap.Room.get (hroom v hv)
  obtain rfl : o = some id := (VarMap.getD_of_get ho).symm.trans hid
  exact ⟨id, bind_eq_ok_iff.2 ⟨_, ho, rfl⟩⟩

theorem unitSteps_succeeds (hroom : c.units.Room vars) (hvs : ∀ v ∈ vs, 1 ≤ v.id ∧ v.id ≤ vars)
    (hknown : ∀ v ∈ vs, c.Knows v) : ∃ steps, c.unitSteps vs = .ok steps := by
  induction vs with
  | nil => exact ⟨[], rfl⟩
  | cons v vs ih =>
    obtain ⟨hv, hvs⟩ := List.forall_mem_cons.1 hvs
    obtain ⟨hkv, hknown⟩ := List.forall_mem_cons.1 hknown
    obtain ⟨id, hid⟩ := unitOf_succeeds hroom hv hkv
    obtain ⟨steps, hsteps⟩ := ih hvs hknown
    exact ⟨_, bind_eq_ok_iff.2 ⟨id, hid, bind_eq_ok_iff.2 ⟨steps, hsteps, rfl⟩⟩⟩

/-! ## Clauses of the formula -/

theorem Complete.newClause (h : c.Complete t) (hc : c.Certifies t s) (ht : t.Valid)
    (hlev : t.level = 0) (ls : List Literal) :
    ∃ id c', c.newClause ls t = .ok (id, c') ∧ c'.Complete t := by
  obtain ⟨es, q, hb⟩ := hc
  have hmarked : ∀ v ∈ (Literal.canonical (falsified ls t)).map Literal.var,
      ∃ m, t.mark? v = some m ∧ m.level = 0 := by
    intro v hv
    obtain ⟨l, hl, rfl⟩ := List.mem_map.1 hv
    obtain ⟨m, hm⟩ := Trail.exists_mark_neg (mem_falsified.1 (Literal.mem_canonical.1 hl)).2
    exact ⟨m, hm, Nat.le_zero.1 (hlev ▸ ht.level_le hm)⟩
  have hroot : c.Grows { c with log := (c.log.addRoot ls).2 } := ⟨rfl, rfl, fun _ h => h⟩
  obtain ⟨steps, hsteps⟩ := unitSteps_succeeds (h.grows hroot).room
    (fun v hv => let ⟨_, hm, _⟩ := hmarked v hv; ht.named hm)
    (fun v hv => let ⟨m, hm, hzero⟩ := hmarked v hv; (h.grows hroot).known v m hm hzero)
  obtain ⟨id, c', hc', hgrows⟩ := derive_succeeds (c := { c with log := (c.log.addRoot ls).2 })
    (Nat.le_succ c.log.nextId) fun s hs =>
      Nat.le_succ_of_le (hb.units_le ((unitSteps_eq_ok hsteps).2 s hs))
  have hcomplete : c'.Complete t := h.grows (hroot.trans hgrows)
  refine ⟨id, _, bind_eq_ok_iff.2 ⟨steps, hsteps, bind_eq_ok_iff.2 ⟨_, hc', rfl⟩⟩, ?_⟩
  split
  · exact ⟨hcomplete.room, hcomplete.cursor, hcomplete.known⟩
  · exact hcomplete

/-- A literal is asserted at level 0 and its unit is noted. -/
theorem Complete.setUnit (h : c.Complete t) (hl : t.Names l) (hcell : t.Covers l.var)
    (hnone : t.mark? l.var = none) (id : ClauseId) :
    ∃ c', c.setUnit l.var (some id) = .ok c' ∧ c'.Complete (t.push l none) := by
  have hput : c.Grows { c with units := c.units.put l.var (some id) } := grows_put (h.room l.var hl)
  refine ⟨_, bind_eq_ok_iff.2 ⟨_, VarMap.Room.set (h.room l.var hl), rfl⟩,
    (h.grows hput).room, fun i hi => ?_, fun v m hm hzero => ?_⟩
  · obtain ⟨v, m, hm, hrest⟩ := h.cursor i hi
    exact ⟨v, m, Trail.mark?_push_of_some hnone hm, hrest⟩
  · rcases Trail.mark?_push hcell hnone hm with ⟨rfl, -⟩ | ⟨-, hold⟩
    · exact ⟨id, VarMap.getD_put_self (h.room _ hl)⟩
    · exact hput.known v (h.known v m hold hzero)

theorem Certifies.delete_succeeds (h : c.Certifies t s) (he : s.get? ref = some e) :
    ∃ c', c.delete e.clauseId = .ok c' ∧ c.Grows c' := by
  obtain ⟨es, q, hb⟩ := h
  obtain ⟨-, id, hid, hq⟩ := hb.stored ref e he
  have hdel : c.log.deleted id = .ok { c.log with
      words := c.log.words ++ Event.deletionWords c.log.nextId id } :=
    bind_eq_ok_iff.2 ⟨(), require_eq_ok_iff.2 (decide_eq_true (hb.lt_nextId hq)), rfl⟩
  rw [hid]
  exact ⟨_, bind_eq_ok_iff.2 ⟨_, hdel, rfl⟩, rfl, rfl, fun _ h => h⟩

/-! ## Literals forced at level 0 -/

section
variable (hk : k.Sound)
include hk

/-- The unit of a forced literal can be derived once those of the variables before it are known. -/
theorem Certifies.recordUnit_succeeds (h : c.Certifies k.trail k.store)
    (hroom : c.units.Room k.trail.vars) (hl : k.trail.holds l = true)
    (hbefore : ∀ v m, k.trail.mark? v = some m → m.position < k.trail.place l.var → c.Knows v)
    (hfree : k.trail.reasonOf l.var = none → c.Knows l.var) :
    ∃ c', c.recordUnit k.trail k.store l = .ok c' ∧ c.Grows c' ∧ c'.Knows l.var := by
  obtain ⟨m, hm, hneg⟩ := hk.trail.holds_iff.1 hl
  have hname := hk.trail.named hm
  obtain ⟨o, ho⟩ := VarMap.Room.get (hroom l.var hname)
  cases o with
  | some id =>
    exact ⟨c, bind_eq_ok_iff.2 ⟨_, ho, rfl⟩, .refl c, id, VarMap.getD_of_get ho⟩
  | none =>
    have hunknown : ¬ c.Knows l.var := by
      rintro ⟨id, hid⟩
      rw [VarMap.getD_of_get ho] at hid
      exact absurd hid (by simp)
    cases href : k.trail.reasonOf l.var with
    | none => exact absurd (hfree href) hunknown
    | some ref =>
      obtain ⟨m', hm', hreason⟩ := hk.trail.reasonOf_eq_some href
      obtain rfl := Option.some.inj (hm'.symm.trans hm)
      obtain ⟨e, he, hforces⟩ := hk.reasons hm hreason
      have hself : (⟨l.var, m'.negative⟩ : Literal) = l := by rw [hneg]
      rw [hself] at hforces
      obtain ⟨es, q, hb⟩ := h
      obtain ⟨hdegree, start, hstart, hq⟩ := hb.stored ref e he
      have hothers : ∀ v ∈ (e.constraint.literals.filter fun j => j.var != l.var).map Literal.var,
          ∃ n, k.trail.mark? v = some n ∧ n.position < k.trail.place l.var := by
        intro v hv
        obtain ⟨j, hj, rfl⟩ := List.mem_map.1 hv
        obtain ⟨hj, hne⟩ := List.mem_filter.1 hj
        obtain ⟨n, hn, -, hlt⟩ := (Constraint.falseBefore_iff hk.trail).1
          (hforces.falseBefore_of_clause hk.trail hdegree hj (fun heq => by simp [heq] at hne) hl)
        exact ⟨n, hn, hlt⟩
      obtain ⟨steps, hsteps⟩ := unitSteps_succeeds hroom
        (fun v hv => let ⟨_, hn, _⟩ := hothers v hv; hk.trail.named hn)
        (fun v hv => let ⟨n, hn, hlt⟩ := hothers v hv; hbefore v n hn hlt)
      obtain ⟨id, c₁, hc₁, hgrows⟩ := derive_succeeds (Nat.le_of_lt (hb.lt_nextId hq)) fun s hs =>
        hb.units_le ((unitSteps_eq_ok hsteps).2 s hs)
      have hcell : l.var.id < c₁.units.cells.size := hgrows.size.symm ▸ hroom l.var hname
      have hset : c₁.setUnit l.var (some id) =
          .ok { c₁ with units := c₁.units.put l.var (some id) } :=
        bind_eq_ok_iff.2 ⟨_, VarMap.Room.set hcell, rfl⟩
      refine ⟨{ c₁ with units := c₁.units.put l.var (some id) }, bind_eq_ok_iff.2 ⟨none, ho, ?_⟩,
        hgrows.trans (grows_put hcell), id, VarMap.getD_put_self hcell⟩
      rw [href]
      exact bind_eq_ok_iff.2 ⟨e, Store.get_eq_ok.2 he, bind_eq_ok_iff.2 ⟨start,
        idOf_succeeds hstart, bind_eq_ok_iff.2 ⟨steps, hsteps, bind_eq_ok_iff.2 ⟨_, hc₁, hset⟩⟩⟩⟩

variable (hlev : k.trail.level = 0)
include hlev

/-- The units of the literals from a place on can be derived in the order of the trail. -/
theorem Certifies.recordUnits_succeeds (h : c.Certifies k.trail k.store)
    (hroom : c.units.Room k.trail.vars)
    (hknown : ∀ v m, k.trail.mark? v = some m → (m.position < n ∨ m.reason = none) → c.Knows v) :
    ∃ c', c.recordUnits k.trail k.store (k.trail.literals.toList.drop n) = .ok c' ∧ c.Grows c' ∧
      ∀ v m, k.trail.mark? v = some m → c'.Knows v := by
  have ht := hk.trail
  induction hleft : k.trail.literals.size - n generalizing n c with
  | zero =>
    have hdrop : k.trail.literals.toList.drop n = [] :=
      List.drop_eq_nil_of_le (Nat.le_of_sub_eq_zero hleft)
    rw [hdrop]
    refine ⟨c, rfl, .refl c, fun v m hm => hknown v m hm (Or.inl ?_)⟩
    exact Nat.lt_of_lt_of_le (ht.position_lt hm) (Nat.le_of_sub_eq_zero hleft)
  | succ left ih =>
    have hn : n < k.trail.literals.size := by omega
    obtain ⟨l, hl⟩ : ∃ l, k.trail.literals[n]? = some l := ⟨_, Array.getElem?_eq_getElem hn⟩
    obtain ⟨m, hm, hneg, hpos⟩ := ht.marked hl
    have htrue : k.trail.holds l = true := Trail.holds_of_mark hm hneg
    have hdrop : k.trail.literals.toList.drop n = l :: k.trail.literals.toList.drop (n + 1) := by
      rw [List.drop_eq_getElem_cons (by simpa using hn)]
      congr 1
      simpa using (Array.getElem?_eq_some_iff.1 hl).2
    obtain ⟨c₁, hc₁, hgrows₁, hself⟩ := h.recordUnit_succeeds hk hroom htrue
      (fun v m' hm' hlt => by
        rw [Trail.place_eq hm, hpos] at hlt
        exact hknown v m' hm' (Or.inl hlt))
      (fun hnone => by
        rw [Trail.reasonOf_eq hm] at hnone
        exact hknown l.var m hm (Or.inr hnone))
    have hcert := (h.recordUnit hk hlev htrue hc₁).1
    obtain ⟨c', hc', hgrows, hall⟩ := ih hcert (hroom.of_size (Nat.le_of_eq hgrows₁.size.symm))
      (n := n + 1) (fun v m' hm' hv => by
        rcases hv with hlt | hnone
        · rcases Nat.lt_succ_iff_lt_or_eq.1 hlt with hlt | heq
          · exact hgrows₁.known v (hknown v m' hm' (Or.inl hlt))
          · exact ht.mark_ext hm' hm (heq.trans hpos.symm) ▸ hself
        · exact hgrows₁.known v (hknown v m' hm' (Or.inr hnone))) (by omega)
    rw [hdrop]
    exact ⟨c', bind_eq_ok_iff.2 ⟨c₁, hc₁, hc'⟩, hgrows₁.trans hgrows, hall⟩

/-- After a propagation at level 0 the units of all literals can be derived. -/
theorem Complete.recordRoot (h : c.Complete t) (hext : t.Extends k.trail)
    (hc : c.Certifies k.trail k.store) :
    ∃ c', c.recordRoot k.trail k.store = .ok c' ∧ c'.Complete k.trail := by
  have ht := hk.trail
  have hroom : c.units.Room k.trail.vars := hext.vars.symm ▸ h.room
  have hknown : ∀ v m, k.trail.mark? v = some m → (m.position < c.cursor ∨ m.reason = none) →
      c.Knows v := by
    intro v m hm hv
    have hzero : m.level = 0 := Nat.le_zero.1 (hlev ▸ ht.level_le hm)
    rcases hext.old_or_fresh hm with hold | ⟨hnone, hsome, -⟩
    · exact h.known v m hold hzero
    · -- a fresh literal has a reason, and the places before the cursor are taken
      rcases hv with hlt | hfree
      · obtain ⟨w, m', hm', -, hpos⟩ := h.cursor m.position hlt
        obtain rfl := ht.mark_ext (hext.marks hm') hm hpos
        rw [hnone] at hm'
        exact absurd hm' (by simp)
      · simp [hfree] at hsome
  obtain ⟨c', hc', hgrows, hall⟩ := hc.recordUnits_succeeds hk hlev hroom hknown
  refine ⟨{ c' with cursor := k.trail.root.size }, bind_eq_ok_iff.2 ⟨c', ?_, rfl⟩,
    hroom.of_size (Nat.le_of_eq hgrows.size.symm), fun i hi => ?_, fun v m hm _ => hall v m hm⟩
  · rw [Trail.root_of_level_zero hlev]
    exact hc'
  · change i < k.trail.root.size at hi
    rw [Trail.root_of_level_zero hlev] at hi
    obtain ⟨m, hm, -, hpos⟩ := ht.marked (Array.getElem?_eq_getElem hi)
    exact ⟨_, m, hm, Nat.le_zero.1 (hlev ▸ ht.level_le hm), hpos⟩

end

/-! ## Refutations and learnt clauses -/

/-- The empty clause can be derived from a constraint that is violated at level 0. -/
theorem Complete.deriveEmpty (h : c.Complete k.trail) (hc : c.Certifies k.trail k.store)
    (hk : k.Clash ref) (hlev : k.trail.level = 0) (he : k.store.get? ref = some e) :
    ∃ id c', c.deriveEmpty e = .ok (id, c') ∧ c.Grows c' := by
  have ht := hk.sound.trail
  obtain ⟨es, q, hb⟩ := hc
  obtain ⟨hdegree, start, hstart, hq⟩ := hb.stored ref e he
  obtain ⟨e', he', hviolated, -⟩ := hk.violated
  obtain rfl := Option.some.inj (he'.symm.trans he)
  have hmarked : ∀ v ∈ e'.constraint.literals.map Literal.var,
      ∃ m, k.trail.mark? v = some m ∧ m.level = 0 := by
    intro v hv
    obtain ⟨l, hl, rfl⟩ := List.mem_map.1 hv
    obtain ⟨m, hm⟩ := Trail.exists_mark_neg (hviolated.falsified hdegree hl)
    exact ⟨m, hm, Nat.le_zero.1 (hlev ▸ ht.level_le hm)⟩
  obtain ⟨steps, hsteps⟩ := unitSteps_succeeds h.room
    (fun v hv => let ⟨_, hm, _⟩ := hmarked v hv; ht.named hm)
    (fun v hv => let ⟨m, hm, hzero⟩ := hmarked v hv; h.known v m hm hzero)
  obtain ⟨id, c', hc', hgrows⟩ := derive_succeeds (Nat.le_of_lt (hb.lt_nextId hq)) fun s hs =>
    hb.units_le ((unitSteps_eq_ok hsteps).2 s hs)
  exact ⟨id, _, bind_eq_ok_iff.2 ⟨start, idOf_succeeds hstart, bind_eq_ok_iff.2 ⟨steps, hsteps,
    bind_eq_ok_iff.2 ⟨_, hc', rfl⟩⟩⟩, hgrows.size, hgrows.cursor, hgrows.known⟩

theorem Backs.resolveIds_succeeds {chain : List (Var × ClauseRef)} (h : c.Backs t s es q)
    (hstored : ∀ x ∈ chain, ∃ e, s.get? x.2 = some e) :
    ∃ out, resolveIds s chain = .ok out ∧ ∀ x ∈ out, x.2 ≤ c.log.nextId := by
  induction chain with
  | nil => exact ⟨[], rfl, by simp⟩
  | cons x chain ih =>
    obtain ⟨⟨e, he⟩, hstored⟩ := List.forall_mem_cons.1 hstored
    obtain ⟨out, hout, hle⟩ := ih hstored
    obtain ⟨-, id, hid, hq⟩ := h.stored x.2 e he
    exact ⟨_, bind_eq_ok_iff.2 ⟨e, Store.get_eq_ok.2 he, bind_eq_ok_iff.2 ⟨id, idOf_succeeds hid,
      bind_eq_ok_iff.2 ⟨out, hout, rfl⟩⟩⟩,
      List.forall_mem_cons.2 ⟨Nat.le_of_lt (h.lt_nextId hq), hle⟩⟩

theorem Complete.deriveLearnt {a : Analysis} {analyzer analyzer' : Analyzer} (h : c.Complete k.trail)
    (hc : c.Certifies k.trail k.store) (hk : k.Clash ref) (hclear : analyzer.Clear)
    (ha : Analysis.of k.trail k.store analyzer ref = .ok (a, analyzer')) :
    ∃ id c', c.deriveLearnt k.store ref a.steps a.fixed = .ok (id, c') ∧ c'.Complete k.trail := by
  obtain ⟨hlearns, -, -⟩ := Analysis.of_eq_ok (P := fun _ => True) hk hclear
    (fun _ _ _ _ _ _ _ _ => trivial) (fun _ _ _ _ _ _ _ _ => trivial) ha
  obtain ⟨es, q, hb⟩ := hc
  obtain ⟨e, he, -⟩ := hk.violated
  obtain ⟨-, start, hstart, hq⟩ := hb.stored ref e he
  obtain ⟨reasons, hreasons, hle⟩ := hb.resolveIds_succeeds (Analysis.stored_of_steps hk hclear ha)
  obtain ⟨units, hunits⟩ := unitSteps_succeeds h.room
    (fun v hv => let ⟨_, hm, _⟩ := hlearns.fixed v hv; hk.sound.trail.named hm)
    (fun v hv => let ⟨m, hm, hzero⟩ := hlearns.fixed v hv; h.known v m hm hzero)
  have hall : ∀ s ∈ reasons ++ units, s.2 ≤ c.log.nextId := fun s hs =>
    (List.mem_append.1 hs).elim (hle s) fun hs => hb.units_le ((unitSteps_eq_ok hunits).2 s hs)
  obtain ⟨id, c', hc', hgrows⟩ := derive_succeeds (Nat.le_of_lt (hb.lt_nextId hq)) hall
  exact ⟨id, c', bind_eq_ok_iff.2 ⟨e, Store.get_eq_ok.2 he, bind_eq_ok_iff.2 ⟨start,
    idOf_succeeds hstart, bind_eq_ok_iff.2 ⟨reasons, hreasons, bind_eq_ok_iff.2 ⟨units, hunits,
      hc'⟩⟩⟩⟩, h.grows hgrows⟩

end Certificate
end Cdcl
