import Cdcl.Proofs.Kernel.Propagation
import Cdcl.Proofs.Solver.Invariant

/-!
# The operations on the parts of a solver

One lemma for each operation that the additions and the search are made of: what it needs, and what
holds of the solver afterwards.
-/

namespace Cdcl
set_option autoImplicit false

theorem Kernel.EndsWith.sound {k : Kernel} {conflict : Option ClauseRef} (h : k.EndsWith conflict) :
    k.Sound := by
  cases conflict with
  | none => exact h.1.sound
  | some ref =>
    have hclash : k.Clash ref := h
    exact hclash.sound

namespace Solver

/-- At most the certificate and the journal differ. -/
def Logs (s s' : Solver) : Prop :=
  s' = { s with certificate := s'.certificate, journal := s'.journal }

variable {s s' s₁ : Solver} {F F' : Formula} {k : Kernel} {n : Nat} {ref : ClauseRef} {e : Stored}
  {l : Literal} {r : Option ClauseRef} {id : Option ClauseId}

section
variable (h : Logs s s')
include h

theorem Logs.kernel : s'.kernel = s.kernel := by rw [h]
theorem Logs.trail : s'.trail = s.trail := by rw [h]; rfl
theorem Logs.store : s'.store = s.store := by rw [h]; rfl
theorem Logs.learnts : s'.learnts = s.learnts := by rw [h]
theorem Logs.order : s'.order = s.order := by rw [h]

end

/-! ## Certificates -/

theorem certify_of_none (h : s.certificate = none) (step : Certificate → Except Fault Certificate) :
    s.certify step = .ok s := by
  unfold certify
  rw [h]

theorem certifyClause_of_none (h : s.certificate = none)
    (step : Certificate → Except Fault (ClauseId × Certificate)) :
    s.certifyClause step = .ok (none, s) := by
  unfold certifyClause
  rw [h]

theorem certify_eq_ok {step : Certificate → Except Fault Certificate}
    (h : s.certify step = .ok s') : Logs s s' ∧ ((s.certificate = none ∧ s' = s) ∨
      ∃ c c', s.certificate = some c ∧ step c = .ok c' ∧ s' = s.setCertificate c.log c') := by
  unfold certify at h
  split at h
  · next hnone =>
    obtain rfl := Except.ok.inj h
    exact ⟨rfl, Or.inl ⟨hnone, rfl⟩⟩
  · next c hc =>
    obtain ⟨c', hc', h⟩ := bind_eq_ok_iff.1 h
    obtain rfl := Except.ok.inj h
    exact ⟨rfl, Or.inr ⟨c, c', hc, hc', rfl⟩⟩

theorem certifyClause_eq_ok {step : Certificate → Except Fault (ClauseId × Certificate)}
    (h : s.certifyClause step = .ok (id, s')) :
    Logs s s' ∧ ((s.certificate = none ∧ s' = s) ∨
      ∃ c c' i, s.certificate = some c ∧ step c = .ok (i, c') ∧ id = some i ∧
        s' = s.setCertificate c.log c') := by
  unfold certifyClause at h
  split at h
  · next hnone =>
    obtain ⟨rfl, rfl⟩ := Prod.mk.inj (Except.ok.inj h)
    exact ⟨rfl, Or.inl ⟨hnone, rfl⟩⟩
  · next c hc =>
    obtain ⟨⟨i, c'⟩, hc', h⟩ := bind_eq_ok_iff.1 h
    obtain ⟨rfl, rfl⟩ := Prod.mk.inj (Except.ok.inj h)
    exact ⟨rfl, Or.inr ⟨c, c', i, hc, hc', rfl, rfl⟩⟩

theorem certificate_of_certifyClause {step : Certificate → Except Fault (ClauseId × Certificate)}
    (h : s.certifyClause step = .ok (id, s')) (hc : s'.certificate ≠ none) :
    s.certificate ≠ none := by
  obtain ⟨-, ⟨-, rfl⟩ | ⟨c, c', i, hsome, -⟩⟩ := certifyClause_eq_ok h
  · exact hc
  · rw [hsome]
    simp

theorem Keeps.recordRoot (h : s.Keeps F) (hk : s.kernel.Sound) (hlev : s.trail.level = 0)
    (hr : s.recordRoot = .ok s') : s'.Keeps F ∧ Logs s s' := by
  obtain ⟨hlogs, ⟨-, rfl⟩ | ⟨c, c', hc, hc', rfl⟩⟩ := certify_eq_ok hr
  · exact ⟨h, hlogs⟩
  · obtain ⟨hempty, hcert⟩ := h.certified c hc
    obtain ⟨hcert', hempty'⟩ := hcert.recordRoot hk hlev hc'
    exact ⟨h.setCertificate (hempty'.trans hempty) hcert', hlogs⟩

/-- The offered unit clause is noted for a literal fixed at level 0. -/
theorem Keeps.setUnit {m : Mark} (h : s.Keeps F) (ho : s.Offers id [l])
    (hm : s.trail.mark? l.var = some m) (hneg : m.negative = l.negative) (hlev : m.level = 0)
    (hr : s.certify (fun c => c.setUnit l.var id) = .ok s') : s'.Keeps F ∧ Logs s s' := by
  obtain ⟨hlogs, ⟨-, rfl⟩ | ⟨c, c', hc, hc', rfl⟩⟩ := certify_eq_ok hr
  · exact ⟨h, hlogs⟩
  · obtain ⟨hempty, i, rfl, hoffers⟩ := ho c hc
    obtain ⟨hcert', hempty', -⟩ := hoffers.setUnit hm hneg hlev hc'
    exact ⟨h.setCertificate (hempty'.trans hempty) hcert', hlogs⟩

/-! ## Assigning and unassigning -/

theorem Keeps.propagate {conflict : Option ClauseRef} (h : s.Keeps F) (hk : s.kernel.Ready)
    (hp : s.propagate = .ok (conflict, s')) :
    s'.Keeps F ∧ s'.kernel.EndsWith conflict ∧ s.trail.Extends s'.trail ∧
      s.store.Alike s'.store ∧ s'.learnts = s.learnts := by
  obtain ⟨⟨o, k⟩, hprop, hp⟩ := bind_eq_ok_iff.1 hp
  obtain ⟨rfl, rfl⟩ := Prod.mk.inj (Except.ok.inj hp)
  obtain ⟨hext, halike, hends⟩ := Kernel.propagate_eq_ok hk hprop
  have hcovers : s.order.Covers k.trail := by
    refine h.covers.mono hext.vars fun v hv => ?_
    cases hm : s.trail.mark? v with
    | none => rfl
    | some m => exact absurd ((hext.marks hm).symm.trans hv) (by simp)
  exact ⟨h.setKernel (Kernel.Follows.of_extends hext halike hends.sound) hcovers, hends, hext, halike,
    rfl⟩

/-- The list of learnt clauses survives a propagation. -/
theorem Sane.propagate {conflict : Option ClauseRef} (h : s.Sane F)
    (hp : s.propagate = .ok (conflict, s')) :
    s'.Keeps F ∧ s'.kernel.EndsWith conflict ∧ s'.store.Lists s'.learnts ∧
      s.trail.Extends s'.trail := by
  obtain ⟨hkeeps, hends, hext, halike, hlearnts⟩ := h.keeps.propagate h.ready hp
  exact ⟨hkeeps, hends, hlearnts ▸ lists_of_alike h.lists halike, hext⟩

theorem backtrack_eq_ok (hb : s.backtrack n = .ok s') :
    ∃ o, s.order.undoAll (s.trail.undoTo n).2 = .ok o ∧
      s' = { s with kernel := { s.kernel with trail := (s.trail.undoTo n).1 }, order := o } := by
  obtain ⟨o, ho, hb⟩ := bind_eq_ok_iff.1 hb
  exact ⟨o, ho, (Except.ok.inj hb).symm⟩

theorem Keeps.backtrack {i : Nat} (h : s.Keeps F) (hk : s.kernel.Firm i) (hn : n < i)
    (hb : s.backtrack n = .ok s') :
    s'.Keeps F ∧ s'.kernel.Ready ∧ s'.trail = (s.trail.undoTo n).1 ∧ s'.store = s.store ∧
      s'.learnts = s.learnts ∧ s'.certificate = s.certificate := by
  obtain ⟨o, ho, rfl⟩ := backtrack_eq_ok hb
  exact ⟨h.follow (Kernel.Follows.undoTo hk.sound.trail) (h.covers.undoTo hk.sound.trail ho),
    hk.undoTo hn, rfl, rfl, rfl, rfl⟩

theorem assert_eq_ok {f : Fault} (h : s.assert l r f = .ok s') :
    (s' = s.setTrail s.trail ∧ s.trail.holds l = true) ∨
      (s' = s.setTrail (s.trail.push l r) ∧ s.trail.mark? l.var = none ∧
        s.trail.Covers l.var) := by
  obtain ⟨o, ho, h⟩ := bind_eq_ok_iff.1 h
  obtain ⟨rfl, -⟩ | ⟨rfl, hholds⟩ | ⟨rfl, hnone, hcell⟩ := Trail.assign_eq_ok ho
  · exact absurd h (by simp)
  · exact Or.inl ⟨(Except.ok.inj h).symm, hholds⟩
  · exact Or.inr ⟨(Except.ok.inj h).symm, hnone, hcell⟩

theorem covers_push (h : s.order.Covers s.trail) (hnone : s.trail.mark? l.var = none) :
    s.order.Covers (s.trail.push l r) := by
  refine h.mono rfl fun v hv => ?_
  cases hm : s.trail.mark? v with
  | none => rfl
  | some m => exact absurd ((Trail.mark?_push_of_some hnone hm).symm.trans hv) (by simp)

theorem Keeps.push (h : s.Keeps F) (hcell : s.trail.Covers l.var)
    (hnone : s.trail.mark? l.var = none) (hlev : s.trail.level ≠ 0) :
    (s.setTrail (s.trail.push l r)).Keeps F :=
  h.setKernel (Kernel.Follows.push hcell hnone hlev) (covers_push h.covers hnone)

theorem Offers.mono {ls : List Literal} (h : s.Offers id ls) (hc : s'.certificate = s.certificate)
    (ht : s.trail.Retains s'.trail) (hs : s.store.Alike s'.store) : s'.Offers id ls := by
  intro c hc'
  obtain ⟨hempty, i, hid, ho⟩ := h c (hc ▸ hc')
  exact ⟨hempty, i, hid, ho.mono ht (Certificate.Covered.of_alike hs)⟩

/-- A literal is fixed at level 0, and the formula grows by it. -/
theorem Keeps.pushRoot (h : s.Keeps F) (hcell : s.trail.Covers l.var)
    (hnone : s.trail.mark? l.var = none) (hlev : s.trail.level = 0)
    (hF : ∀ a : Assignment, F'.Holds a ↔ F.Holds a ∧ a.makes l = true) :
    (s.setTrail (s.trail.push l r)).Keeps F' := by
  have hkeeps : Keeps { s with kernel := { s.kernel with trail := s.trail.push l r } } F' :=
    { h with
      represents := h.represents.push hlev hcell hnone hF
      covers := covers_push h.covers hnone
      certified := by
        intro c hc
        obtain ⟨hempty, hcert⟩ := h.certified c hc
        exact ⟨hempty, hcert.mono (Trail.Retains.push hcell hnone) (Certificate.Covered.of_alike
          (Store.Alike.refl _))⟩ }
  exact hkeeps.noteAll fun _ => ne_rootConflict_of_mem_assignments

/-- The literal of the unit clause on offer is fixed at level 0. -/
theorem Keeps.fix {f : Fault} (h : s.Keeps F) (hk : s.kernel.Ready) (hlev : s.trail.level = 0)
    (hname : s.trail.Names l) (hnone : s.trail.mark? l.var = none) (ho : s.Offers id [l])
    (hF : ∀ a : Assignment, F'.Holds a ↔ F.Holds a ∧ a.makes l = true)
    (hs₁ : s.assert l none f = .ok s₁) (hs' : s₁.certify (fun c => c.setUnit l.var id) = .ok s') :
    s'.Keeps F' ∧ s'.kernel.Ready ∧ s'.trail = s.trail.push l none ∧ s'.store = s.store ∧
      s'.learnts = s.learnts := by
  obtain ⟨-, hholds⟩ | ⟨rfl, -, hcell⟩ := assert_eq_ok hs₁
  · obtain ⟨m, hm⟩ := Trail.exists_mark hholds
    exact absurd (hnone.symm.trans hm) (by simp)
  · have hpush := h.pushRoot (r := none) hcell hnone hlev hF
    have hready : Kernel.Ready { s.kernel with trail := s.trail.push l none } :=
      Kernel.Firm.push hk hname hnone fun ref href => absurd href (by simp)
    have hoffers : (s.setTrail (s.trail.push l none)).Offers id [l] :=
      ho.mono rfl (Trail.Retains.push hcell hnone) (Store.Alike.refl _)
    obtain ⟨h', hlogs⟩ := hpush.setUnit hoffers (Trail.mark?_push_self hcell hnone) rfl hlev hs'
    exact ⟨h', hlogs.kernel ▸ hready, hlogs.trail, hlogs.store, hlogs.learnts⟩

/-! ## Storing and removing -/

theorem insertConstraint_eq_ok (h : s.insertConstraint e = .ok (ref, s')) :
    ref = (s.store.insert e).1 ∧
      ∃ w, s.kernel.watches.addAll (s.store.insert e).1 e.constraint.watching = .ok w ∧
        s' = { s with kernel := { s.kernel with store := (s.store.insert e).2, watches := w } } := by
  obtain ⟨kernel, hkernel, h⟩ := bind_eq_ok_iff.1 h
  obtain ⟨w, hw, hkernel⟩ := bind_eq_ok_iff.1 hkernel
  obtain rfl := Except.ok.inj hkernel
  obtain ⟨rfl, rfl⟩ := Prod.mk.inj (Except.ok.inj h)
  exact ⟨rfl, w, hw, rfl⟩

theorem Keeps.insert {w : Watches} {size : Nat} (h : s.Keeps F)
    (hsize : size = if e.learnt then s.formulaSize else s.formulaSize + 1)
    (ho : s.Offers e.clauseId e.constraint.literals)
    (hdegree : s.certificate ≠ none → e.constraint.degree = 1)
    (hrep : Kernel.Represents { s.kernel with store := (s.store.insert e).2, watches := w } F') :
    Keeps { s with
      kernel := { s.kernel with store := (s.store.insert e).2, watches := w }
      formulaSize := size } F' :=
  { h with
    represents := hrep
    known := by
      intro key ref href
      obtain ⟨e', he', hgiven⟩ := h.known key ref href
      exact ⟨e', Store.get?_insert_of_some he', hgiven⟩
    originals := by
      change size = ((s.store.insert e).2.refs false).length
      rw [Store.refs_insert.length_eq, hsize, h.originals]
      cases e.learnt <;> rfl
    certified := by
      intro c hc
      obtain ⟨hempty, i, hi, hoffers⟩ := ho c hc
      exact ⟨hempty, hoffers.insert hi (hdegree (by rw [hc]; simp))⟩ }

theorem strikeOff_eq_ok (h : s.strikeOff e = .ok s') : ∃ known size,
    known = (if e.learnt then s.known else s.known.erase e.constraint.key) ∧
    size = (if e.learnt then s.formulaSize else s.formulaSize - 1) ∧
    s' = { s with known, formulaSize := size } := by
  unfold strikeOff at h
  split at h
  · next hlearnt =>
    exact ⟨s.known, s.formulaSize, (if_pos hlearnt).symm, (if_pos hlearnt).symm,
      (Except.ok.inj h).symm⟩
  · next hgiven =>
    obtain ⟨_, -, h⟩ := bind_eq_ok_iff.1 h
    exact ⟨_, _, (if_neg hgiven).symm, (if_neg hgiven).symm, (Except.ok.inj h).symm⟩

/-- A constraint leaves that was learnt or holds at level 0. -/
theorem Keeps.erase {w : Watches} {cert : Option Certificate}
    {known : Std.HashMap ConstraintKey ClauseRef} {size : Nat} (h : s.Keeps F)
    (he : s.store.get? ref = some e)
    (hgone : e.learnt = false → ∀ a : Assignment, a.RespectsRoot s.trail →
      e.constraint.demand.Holds a)
    (hknown : known = if e.learnt then s.known else s.known.erase e.constraint.key)
    (hsize : size = if e.learnt then s.formulaSize else s.formulaSize - 1)
    (hcert : ∀ c, cert = some c → c.empty = none ∧ c.Certifies s.trail (s.store.erase ref)) :
    Keeps { s with
      kernel := { s.kernel with store := s.store.erase ref, watches := w }
      certificate := cert
      known
      formulaSize := size } F :=
  { h with
    represents := h.represents.erase he hgone
    known := by
      intro key c hc
      have hold : s.known[key]? = some c ∧ (e.learnt = false → e.constraint.key ≠ key) := by
        change known[key]? = some c at hc
        rw [hknown] at hc
        split at hc
        · next hlearnt => exact ⟨hc, fun hno => absurd (hno.symm.trans hlearnt) (by simp)⟩
        · rw [Std.HashMap.getElem?_erase] at hc
          split at hc
          · exact absurd hc (by simp)
          · next hne => exact ⟨hc, fun _ heq => hne (by simp [heq])⟩
      obtain ⟨e', he', hgiven, hkey⟩ := h.known key c hold.1
      refine ⟨e', Store.get?_erase.trans ((if_neg ?_).trans he'), hgiven, hkey⟩
      rintro rfl
      obtain rfl := Option.some.inj (he.symm.trans he')
      exact hold.2 hgiven hkey
    originals := by
      change size = ((s.store.erase ref).refs false).length
      rw [Store.length_refs_erase he, hsize, h.originals]
    certified := hcert }

/-- A constraint that leaves is no reason, and it was learnt or holds at level 0. -/
theorem Keeps.removeConstraint (h : s.Keeps F) (hk : s.kernel.Firm n)
    (hgone : ∀ e, s.store.get? ref = some e → e.learnt = false →
      ∀ a : Assignment, a.RespectsRoot s.trail → e.constraint.demand.Holds a)
    (hfree : ∀ v m, s.trail.mark? v = some m → m.reason ≠ some ref)
    (hr : s.removeConstraint ref = .ok s') :
    s'.Keeps F ∧ s'.kernel.Firm n ∧ s'.trail = s.trail ∧ s'.learnts = s.learnts ∧
      ∀ c, s'.store.get? c = if c = ref then none else s.store.get? c := by
  unfold Solver.removeConstraint at hr
  split at hr
  · next hnone =>
    obtain rfl := Except.ok.inj hr
    refine ⟨h, hk, rfl, rfl, fun c => ?_⟩
    split
    · next hc => rw [hc, hnone]
    · rfl
  · next e he =>
    obtain ⟨k, hkernel, hr⟩ := bind_eq_ok_iff.1 hr
    obtain ⟨w, hw, hkernel⟩ := bind_eq_ok_iff.1 hkernel
    obtain rfl := Except.ok.inj hkernel
    obtain ⟨s₁, hs₁, hr⟩ := bind_eq_ok_iff.1 hr
    obtain ⟨s₂, hs₂, hr⟩ := bind_eq_ok_iff.1 hr
    obtain rfl := Except.ok.inj hr
    have hfirm := hk.erase he hw hfree
    obtain ⟨cert, journal, rfl, hcert, hcalm⟩ : ∃ cert journal,
        s₁ = { s with
          kernel := { s.kernel with store := s.store.erase ref, watches := w }
          certificate := cert
          journal } ∧
        (∀ c, cert = some c → c.empty = none ∧ c.Certifies s.trail (s.store.erase ref)) ∧
        Notice.rootConflict ∉ journal := by
      obtain ⟨-, ⟨hnone, rfl⟩ | ⟨c, c', hc, hdel, rfl⟩⟩ := certify_eq_ok hs₁
      · have hnone' : s.certificate = none := hnone
        exact ⟨s.certificate, s.journal, rfl, fun c hc => absurd (hnone'.symm.trans hc) (by simp),
          h.calm⟩
      · obtain ⟨hempty, hcert⟩ := h.certified c hc
        obtain ⟨hcert', hempty'⟩ := hcert.delete he hdel
        refine ⟨some c', _, rfl, fun d hd => ?_, ?_⟩
        · obtain rfl := Option.some.inj hd
          exact ⟨hempty'.trans hempty, hcert'⟩
        · rw [Array.mem_append, not_or]
          refine ⟨h.calm, fun hin => ?_⟩
          obtain ⟨ev, -, hev⟩ := List.mem_filterMap.1 (List.mem_toArray.1 hin)
          exact ne_rootConflict_of_ofEvent hev rfl
    have hcalm' := calm_push (n := .removed ref) hcalm (by simp)
    obtain ⟨known, size, hknown, hsize, rfl⟩ := strikeOff_eq_ok hs₂
    exact ⟨(h.erase he (hgone e he) hknown hsize hcert).of_eq rfl rfl rfl rfl rfl rfl rfl hcalm',
      hfirm, rfl, rfl, fun c => Store.get?_erase⟩

/-! ## Refutations -/

theorem Refuted.of_eq (h : s.Refuted F) (hrefuted : s'.refuted = s.refuted)
    (hcertificate : s'.certificate = s.certificate) : s'.Refuted F :=
  ⟨hrefuted.trans h.refuted, h.unsatisfiable, hcertificate ▸ h.certified⟩

theorem Keeps.rootConflict (h : s.Keeps F) (hk : s.kernel.Clash ref) (hlev : s.trail.level = 0)
    (hr : s.rootConflict ref = .ok s') :
    s'.Refuted F ∧ Notice.rootConflict ∈ s'.journal ∧ s'.kernel = s.kernel := by
  obtain ⟨s₁, hs₁, hr⟩ := bind_eq_ok_iff.1 hr
  obtain ⟨h₁, hlogs₁⟩ := h.recordRoot hk.sound hlev hs₁
  obtain ⟨e, he, hr⟩ := bind_eq_ok_iff.1 hr
  obtain ⟨⟨id, s₂⟩, hs₂, hr⟩ := bind_eq_ok_iff.1 hr
  obtain rfl := Except.ok.inj hr
  rw [Store.get_eq_ok, hlogs₁.store] at he
  have hunsat : ¬ F.Satisfiable := fun ⟨a, ha⟩ => h.represents.not_holds hk hlev ha
  obtain ⟨hlogs₂, hcases⟩ := certifyClause_eq_ok hs₂
  have hkernel : s₂.kernel = s.kernel := hlogs₂.kernel.trans hlogs₁.kernel
  have hrefuted : Refuted { s₂ with refuted := true } F := by
    refine ⟨rfl, hunsat, fun c hc => ?_⟩
    change s₂.certificate = some c at hc
    rcases hcases with ⟨hnone, rfl⟩ | ⟨c₁, c₂, i, hc₁, hc₂, rfl, rfl⟩
    · exact absurd (hnone.symm.trans hc) (by simp)
    · obtain rfl : c₂ = c := Option.some.inj hc
      obtain ⟨-, hcert⟩ := h₁.certified c₁ hc₁
      rw [hlogs₁.trail, hlogs₁.store] at hcert
      exact ⟨i, (hcert.deriveEmpty hk he hc₂).imp_right Certificate.Offers.refutes⟩
  cases id with
  | none => exact ⟨hrefuted.of_eq rfl rfl, Array.mem_push_self, hkernel⟩
  | some i => exact ⟨hrefuted.of_eq rfl rfl, Array.mem_push_self, hkernel⟩

end Solver
end Cdcl
