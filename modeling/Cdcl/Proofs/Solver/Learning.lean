import Cdcl.Proofs.Solver.Cleaning
import Cdcl.Solver.Search

/-!
# Learning from a conflict

`analyze` gives a clause that follows from the formula and is on offer in the certificate. `learn`
returns to the level of its second literal, where all but its first literal are false, stores the
clause and asserts that literal. After the assertion the new clause is settled: the literal that it
watches besides the asserted one became false at the same level.
-/

namespace Cdcl.Solver
set_option autoImplicit false

variable {s s' : Solver} {F : Formula} {conflict ref : ClauseRef} {a : Analysis}
  {id : Option ClauseId} {l m : Literal} {ls others : List Literal} {k : Kernel} {t : Trail}

theorem Keeps.analyze (h : s.Keeps F) (hk : s.kernel.Clash conflict)
    (hr : s.analyze conflict = .ok (a, id, s')) :
    s'.Keeps F ∧ s'.kernel = s.kernel ∧ s'.learnts = s.learnts ∧ a.Learns s.trail ∧
      s'.Offers id a.learnt ∧ ∀ b : Assignment, F.Holds b → b.Satisfies a.learnt := by
  obtain ⟨⟨a₁, analyzer⟩, ha, hr⟩ := bind_eq_ok_iff.1 hr
  obtain ⟨order, horder, hr⟩ := bind_eq_ok_iff.1 hr
  obtain ⟨_, hreq, hr⟩ := bind_eq_ok_iff.1 hr
  obtain ⟨⟨id₁, s₁⟩, hs₁, hr⟩ := bind_eq_ok_iff.1 hr
  obtain ⟨rfl, hpair⟩ := Prod.mk.inj (Except.ok.inj hr)
  obtain ⟨rfl, rfl⟩ := Prod.mk.inj hpair
  obtain ⟨hlearns, hclear, -⟩ := Analysis.of_eq_ok (P := fun _ => True) hk h.clear
    (fun _ _ _ _ _ _ _ _ => trivial) (fun _ _ _ _ _ _ _ _ => trivial) ha
  have hfollows : ∀ b : Assignment, F.Holds b → b.Satisfies a₁.learnt := fun b hb =>
    Analysis.of_entails hk h.clear ha (h.represents.satisfied b hb) ((h.represents.meets b).1 hb).root
  have hanalyzer : Keeps { s with analyzer } F := { h with clear := hclear }
  have hbase := hanalyzer.setOrder (h.covers.bumpAll horder)
  obtain ⟨hlogs, ⟨hnone, rfl⟩ | ⟨c, c', i, hc, hd, rfl, rfl⟩⟩ := certifyClause_eq_ok hs₁
  · refine ⟨hbase.note (by simp), rfl, rfl, hlearns, fun c hc => ?_, hfollows⟩
    exact absurd (hnone.symm.trans hc) (by simp)
  · have hne : a₁.steps ≠ [] ∨ a₁.fixed ≠ [] := by
      have hsome : s.certificate = some c := hc
      have hreq' := require_eq_ok_iff.1 hreq
      change (!a₁.steps.isEmpty || !a₁.fixed.isEmpty || s.certificate.isNone) = true at hreq'
      simpa [hsome] using hreq'
    obtain ⟨hempty, hcert⟩ := h.certified c hc
    obtain ⟨hoffers, hempty'⟩ := hcert.deriveLearnt hk h.clear ha hne hd
    refine ⟨(hbase.setCertificate (hempty'.trans hempty) hoffers.certifies).note (by simp), rfl, rfl,
      hlearns, fun d hd => ?_, hfollows⟩
    obtain rfl := Option.some.inj hd
    exact ⟨hempty'.trans hempty, i, rfl, hoffers⟩

/-! ## Storing the learnt clause -/

/-- A constraint of degree 1 watches its first two literals. -/
theorem watching_eq_of_literals {c : Constraint} (hc : c.Valid) (hd : c.degree = 1)
    (hlits : c.literals = l :: m :: ls) : c.watching = [l, m] := by
  have hlen := hc.length_watching
  rw [hd] at hlen
  rw [c.literals_eq] at hlits
  obtain ⟨x, y, hw⟩ := List.length_eq_two.1 hlen
  rw [hw] at hlits ⊢
  obtain ⟨hx, hrest⟩ := List.cons.inj hlits
  obtain ⟨hy, -⟩ := List.cons.inj hrest
  rw [hx, hy]

/-- The asserted literal and its reason, a clause whose other literals are all false, the second of
them at the current level. -/
theorem firm_assert {e : Stored} {w : Watches} (hk : k.Ready) (hnone : k.trail.mark? l.var = none)
    (hnames : ∀ x ∈ l :: m :: ls, k.trail.Names x)
    (hfalse : ∀ x ∈ m :: ls, k.trail.holds (-x) = true)
    (hlevel : k.trail.levelOf m.var = k.trail.level) (hc : e.constraint.Valid)
    (hd : e.constraint.degree = 1) (hlits : e.constraint.literals = l :: m :: ls)
    (hw : k.watches.addAll (k.store.insert e).1 e.constraint.watching = .ok w) :
    Kernel.Ready { k with
      store := (k.store.insert e).2
      watches := w
      trail := k.trail.push l (some (k.store.insert e).1) } := by
  have hcell := hk.sound.trail.covers (hnames l List.mem_cons_self)
  have hwatching := watching_eq_of_literals hc hd hlits
  have hplace : (k.trail.push l (some (k.store.insert e).1)).place l.var =
      k.trail.literals.size := Trail.place_eq (Trail.mark?_push_self hcell hnone)
  have hforces : e.constraint.Forces (k.trail.push l (some (k.store.insert e).1)) l := by
    refine ⟨by rw [hwatching]; exact List.mem_cons_self, ?_⟩
    have hall : ∀ x ∈ m :: ls, (k.trail.push l (some (k.store.insert e).1)).falseBefore
        k.trail.literals.size x = true := by
      intro x hx
      obtain ⟨i, hi⟩ := Trail.exists_mark_neg (hfalse x hx)
      refine Bool.and_eq_true_iff.2 ⟨(Trail.holds_push hcell).2 (Or.inr (hfalse x hx)), ?_⟩
      rw [Trail.place_eq (Trail.mark?_push_of_some hnone hi), decide_eq_true_eq]
      exact hk.sound.trail.position_lt hi
    rw [hlits, hd, hplace, List.countP_cons, List.countP_eq_length.2 hall]
    simp only [List.length_cons]
    omega
  refine ⟨?_, hk.indexed.insert hw, ?_⟩
  · have hsound : Kernel.Sound { k with store := (k.store.insert e).2, watches := w } :=
      hk.sound.insert hc (by rw [hlits]; exact hnames)
    refine hsound.push (hnames l List.mem_cons_self) hnone fun ref href => ?_
    obtain rfl := Option.some.inj href
    exact ⟨e, Store.get?_insert_self, hforces⟩
  · have hstable := hk.stable.push (r := some (k.store.insert e).1) hk.sound.trail
      (hnames l List.mem_cons_self) hnone
    refine hstable.insert (w := w) fun u hu i hi hneg _ x hx hne => ?_
    rw [hwatching] at hu hx
    simp only [List.mem_cons, List.not_mem_nil, or_false] at hu hx
    change (k.trail.push l (some (k.store.insert e).1)).mark? u.var = some i at hi
    change (k.trail.push l (some (k.store.insert e).1)).holds x = true ∧
      (k.trail.push l (some (k.store.insert e).1)).levelOf x.var ≤ i.level
    rcases hu with rfl | rfl
    · -- the asserted literal is true
      obtain rfl := Option.some.inj ((Trail.mark?_push_self hcell hnone).symm.trans hi)
      exact absurd rfl hneg
    · rcases hx with rfl | rfl
      · refine ⟨(Trail.holds_push hcell).2 (Or.inl rfl), ?_⟩
        obtain ⟨j, hj⟩ := Trail.exists_mark_neg (hfalse u List.mem_cons_self)
        obtain rfl := Option.some.inj ((Trail.mark?_push_of_some hnone hj).symm.trans hi)
        refine Nat.le_of_eq ?_
        rw [Trail.levelOf_eq (Trail.mark?_push_self hcell hnone), ← hlevel, Trail.levelOf_eq hj]
      · exact absurd rfl hne

/-- The learnt clause is stored and becomes the reason of its first literal. -/
theorem Keeps.assertLearnt {s₁ s₂ : Solver} {c : Constraint} {f : Fault} (h : s.Keeps F)
    (hk : s.kernel.Ready) (hl : s.store.Lists s.learnts) (hlev : s.trail.level ≠ 0)
    (hnone : s.trail.mark? l.var = none) (hnames : ∀ x ∈ l :: m :: ls, s.trail.Names x)
    (hfalse : ∀ x ∈ m :: ls, s.trail.holds (-x) = true)
    (hlevel : s.trail.levelOf m.var = s.trail.level)
    (hdistinct : ((l :: m :: ls).map Literal.var).Nodup) (ho : s.Offers id (l :: m :: ls))
    (hfollows : ∀ b : Assignment, F.Holds b → b.Satisfies (l :: m :: ls))
    (hc : Constraint.clause (l :: m :: ls) = .ok c)
    (hs₁ : s.insertConstraint ⟨c, 0.0, true, id⟩ = .ok (ref, s₁))
    (hs₂ : (s₁.keepLearnt ref).bumpClause ref = .ok s₂)
    (hs' : s₂.assert l (some ref) f = .ok s') :
    s'.Keeps F ∧ s'.kernel.Ready ∧ s'.store.Lists s'.learnts ∧
      s'.trail = s.trail.push l (some ref) := by
  obtain ⟨hvalid, hdegree, hlits⟩ := Constraint.clause_eq_ok hc hdistinct
  obtain ⟨rfl, w, hw, rfl⟩ := insertConstraint_eq_ok hs₁
  have hbumps := bumpClause_eq_ok hs₂
  have hins := h.insert (e := ⟨c, 0.0, true, id⟩) (w := w) rfl (by rw [hlits]; exact ho)
    (fun _ => hdegree) (h.represents.insert_learnt rfl fun b hb => by
      rw [Constraint.holds_iff_satisfies hdegree, hlits]
      exact hfollows b hb)
  have h₂ : s₂.Keeps F := hbumps.keeps (hins.of_eq rfl rfl rfl rfl rfl rfl rfl hins.calm)
  have hready := firm_assert (e := ⟨c, 0.0, true, id⟩) hk hnone hnames hfalse hlevel hvalid hdegree
    hlits hw
  have htrail : s₂.trail = s.trail := hbumps.trail
  have hnone₂ : s₂.trail.mark? l.var = none := by rw [htrail]; exact hnone
  obtain ⟨-, hholds⟩ | ⟨rfl, -, hcell⟩ := assert_eq_ok hs'
  · obtain ⟨i, hi⟩ := Trail.exists_mark hholds
    exact absurd (hnone₂.symm.trans hi) (by simp)
  · refine ⟨h₂.push hcell hnone₂ (by rw [htrail]; exact hlev), ?_, ?_, by rw [htrail]; rfl⟩
    · obtain ⟨store, inc, hsame, rfl⟩ := hbumps
      exact Kernel.Firm.same hready hsame
    · have hlist := lists_of_alike (lists_insert_learnt (e := ⟨c, 0.0, true, id⟩) hl rfl)
        hbumps.same.alike
      rw [show (s₂.setTrail (s₂.trail.push l _)).learnts = s₂.learnts from rfl, hbumps.learnts]
      exact hlist

/-- The trail after learning: the literals of the level to return to and below, and the asserted one,
which is forced unless it is fixed at level 0. -/
def Asserts (t t' : Trail) (a : Analysis) : Prop :=
  ∃ l r, t' = (t.undoTo a.level).1.push l r ∧ (t.undoTo a.level).1.mark? l.var = none ∧
    (t.undoTo a.level).1.Covers l.var ∧ (r = none → a.level = 0)

/-- The learnt clause once its level is returned to: its first literal is unassigned and the others are
false, the second one since this level. -/
structure Returns (t : Trail) (a : Analysis) (l : Literal) (others : List Literal) : Prop where
  learnt : a.learnt = l :: others
  level : t.level = a.level
  free : t.mark? l.var = none
  names : ∀ x ∈ l :: others, t.Names x
  falsified : ∀ x ∈ others, t.holds (-x) = true
  unit : others = [] → a.level = 0
  second : ∀ m ms, others = m :: ms → 0 < a.level ∧ t.levelOf m.var = a.level

theorem returns_of_learns {t : Trail} (h : a.Learns t) (ht : t.Valid) :
    ∃ l others, Returns (t.undoTo a.level).1 a l others := by
  have hlt := h.level_lt
  have hfalsified := h.falsified (Nat.lt_of_le_of_lt (Nat.zero_le _) hlt)
  obtain ⟨u, others, hlearnt, -, hulev, hothers, hsecond, hunit⟩ := h.asserting
  have hfalse : ∀ x ∈ others, (t.undoTo a.level).1.holds (-x) = true := fun x hx =>
    ht.holds_undoTo.2 ⟨(hothers x hx).1, (hothers x hx).2.2⟩
  refine ⟨-u, others, hlearnt, ?_, ?_, fun x hx => ?_, hfalse, hunit, fun m ms hm => ?_⟩
  · rw [Trail.level_undoTo, Nat.min_eq_right (Nat.le_of_lt hlt)]
  · cases hm : (t.undoTo a.level).1.mark? (-u).var with
    | none => rfl
    | some i =>
      obtain ⟨hm, hle⟩ := ht.mark?_undoTo.1 hm
      rw [← hulev, Trail.levelOf_eq (v := u.var) hm] at hlt
      exact absurd hle (Nat.not_le.2 hlt)
  · obtain ⟨i, hi⟩ := Trail.exists_mark (hfalsified x (hlearnt ▸ hx)).1
    unfold Trail.Names
    rw [Trail.vars_undoTo]
    exact ht.named hi
  · subst hm
    have hmlev := hsecond m ms rfl
    obtain ⟨i, hi⟩ := Trail.exists_mark_neg (hothers m List.mem_cons_self).1
    have hilev : i.level = a.level := (Trail.levelOf_eq hi).symm.trans hmlev
    refine ⟨hmlev ▸ (hothers m List.mem_cons_self).2.1, ?_⟩
    rw [Trail.levelOf_eq (ht.mark?_undoTo_eq hi (Nat.le_of_eq hilev)), hilev]

theorem Keeps.learn (h : s.Keeps F) (hk : s.kernel.Clash conflict) (hl : s.store.Lists s.learnts)
    (hlearns : a.Learns s.trail) (ho : s.Offers id a.learnt)
    (hfollows : ∀ b : Assignment, F.Holds b → b.Satisfies a.learnt)
    (hr : s.learn a id = .ok s') :
    s'.Keeps F ∧ s'.kernel.Ready ∧ s'.store.Lists s'.learnts ∧ Asserts s.trail s'.trail a := by
  obtain ⟨s₁, hs₁, hr⟩ := bind_eq_ok_iff.1 hr
  obtain ⟨s₂, hs₂, hr⟩ := bind_eq_ok_iff.1 hr
  have hvalid : s.trail.Valid := hk.sound.trail
  obtain ⟨u, others, hreturns⟩ := returns_of_learns hlearns hvalid
  have hlearnt := hreturns.learnt
  -- after the return to the level of the second literal
  have hbumps := bumpLearnts_eq_ok hs₁
  obtain ⟨h₂, hk₂, htrail, hstore, hlearnts, hcertificate⟩ := (hbumps.keeps h).backtrack
    (hbumps.firm hk.toFirm) (by exact hlearns.level_lt) hs₂
  rw [hbumps.trail] at htrail
  have hl₂ : s₂.store.Lists s₂.learnts := by
    rw [hlearnts, hstore, hbumps.learnts]
    exact lists_of_alike hl hbumps.same.alike
  have ho₂ : s₂.Offers id (u :: others) := by
    rw [← hlearnt]
    refine ho.mono (hcertificate.trans hbumps.certificate) ?_ (hstore ▸ hbumps.same.alike)
    rw [htrail]
    exact Trail.Retains.undoTo hvalid
  rw [← htrail] at hreturns
  have hcell : s₂.trail.Covers u.var :=
    hk₂.sound.trail.covers (hreturns.names _ List.mem_cons_self)
  have hasserts : ∀ {t' r}, t' = s₂.trail.push u r → (r = none → a.level = 0) →
      Asserts s.trail t' a := by
    rintro t' r rfl hr
    have hfree := hreturns.free
    rw [htrail] at hfree hcell ⊢
    exact ⟨u, r, rfl, hfree, hcell, hr⟩
  rw [hlearnt] at hfollows hr
  cases others with
  | nil =>
    obtain ⟨s₃, hs₃, hr⟩ := bind_eq_ok_iff.1 hr
    obtain ⟨s₄, hs₄, hr⟩ := bind_eq_ok_iff.1 hr
    obtain rfl := Except.ok.inj hr
    have hzero := hreturns.unit rfl
    obtain ⟨h₄, hk₄, htrail₄, hstore₄, hlearnts₄⟩ := h₂.fix hk₂ (hreturns.level.trans hzero)
      (hreturns.names _ List.mem_cons_self) hreturns.free ho₂
      (fun b => (and_iff_left_of_imp fun hb => by
        obtain ⟨x, hx, hmakes⟩ := hfollows b hb
        exact List.mem_singleton.1 hx ▸ hmakes).symm) hs₃ hs₄
    have hl₄ : s₄.store.Lists s₄.learnts := by
      rw [hstore₄, hlearnts₄]
      exact hl₂
    exact ⟨h₄.of_eq rfl rfl rfl rfl rfl rfl rfl h₄.calm, hk₄, hl₄, hasserts htrail₄ fun _ => hzero⟩
  | cons m ms =>
    obtain ⟨c, hc, hr⟩ := bind_eq_ok_iff.1 hr
    obtain ⟨⟨ref, s₃⟩, hs₃, hr⟩ := bind_eq_ok_iff.1 hr
    obtain ⟨s₄, hs₄, hr⟩ := bind_eq_ok_iff.1 hr
    obtain ⟨s₅, hs₅, hr⟩ := bind_eq_ok_iff.1 hr
    obtain rfl := Except.ok.inj hr
    obtain ⟨hpos, hmlev⟩ := hreturns.second m ms rfl
    rw [← hreturns.level] at hpos hmlev
    obtain ⟨h₅, hk₅, hl₅, htrail₅⟩ := h₂.assertLearnt hk₂ hl₂ (Nat.ne_of_gt hpos) hreturns.free
      hreturns.names hreturns.falsified hmlev (hlearnt ▸ hlearns.distinct) ho₂ hfollows hc hs₃ hs₄ hs₅
    exact ⟨h₅.of_eq rfl rfl rfl rfl rfl rfl rfl h₅.calm, hk₅, hl₅,
      hasserts htrail₅ fun hno => absurd hno (by simp)⟩

end Cdcl.Solver
