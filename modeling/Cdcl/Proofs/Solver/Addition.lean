import Cdcl.Proofs.Constraint.Lifetime
import Cdcl.Proofs.Intake
import Cdcl.Proofs.Solver.Changes
import Cdcl.Solver.Addition

/-!
# Additions extend the formula

An idle solver for a formula becomes one for the formula and the demand that was added, unless the
addition fails: then the two contradict each other and the certificate shows it, or the solver did
not change (`Solver.Takes`).
-/

namespace Cdcl
set_option autoImplicit false

/-- The literal that a signed number names. -/
def Literal.ofSigned (raw : Int) : Literal := ⟨⟨raw.natAbs⟩, decide (raw < 0)⟩

theorem Literal.toInt_ofSigned (raw : Int) : (Literal.ofSigned raw).toInt = raw := by
  unfold Literal.toInt Literal.ofSigned
  by_cases h : raw < 0
  · rw [if_pos (by simpa using h)]
    dsimp only
    omega
  · rw [if_neg (by simpa using h)]
    dsimp only
    omega

theorem Literal.ofSigned_injective {a b : Int} (h : Literal.ofSigned a = Literal.ofSigned b) :
    a = b := by
  rw [← toInt_ofSigned a, ← toInt_ofSigned b, h]

theorem Literal.ofSigned_neg {raw : Int} (h : raw ≠ 0) :
    Literal.ofSigned (-raw) = -Literal.ofSigned raw := by
  have hsign : decide (-raw < 0) = !decide (raw < 0) := by
    rw [← decide_not, decide_eq_decide]
    omega
  unfold Literal.ofSigned
  rw [Int.natAbs_neg, hsign]
  rfl

namespace Solver

/-- Every variable has literals, and if there is a certificate it can name them. -/
structure Sized (s : Solver) : Prop where
  signed : s.numVars < Var.signedLimit
  recorded : s.certificate ≠ none → s.numVars < Event.varLimit

variable {s s' : Solver} {F F' : Formula} {d : Demand} {ls : List Literal} {l : Literal}
  {id : Option ClauseId} {c : Constraint} {what : Handle} {r : Added}

theorem Sized.of_lt (h : s.numVars < Event.varLimit) : s.Sized :=
  ⟨Nat.lt_trans h (by decide), fun _ => h⟩

/-! ## Literals -/

theorem literals_congr {raws : List Int} (h : s'.numVars = s.numVars) :
    s'.literals raws = s.literals raws := by
  induction raws with
  | nil => rfl
  | cons raw raws ih =>
    unfold literals literal
    rw [ih, h]

theorem literals_eq_ok {raws : List Int} (hvars : s.numVars < Var.signedLimit)
    (hr : s.literals raws = .ok ls) :
    ls = raws.map Literal.ofSigned ∧ ∀ l ∈ ls, s.trail.Names l := by
  induction raws generalizing ls with
  | nil =>
    obtain rfl := Except.ok.inj hr
    simp
  | cons raw raws ih =>
    obtain ⟨l, hl, hr⟩ := bind_eq_ok_iff.1 hr
    obtain ⟨rest, hrest, hr⟩ := bind_eq_ok_iff.1 hr
    obtain rfl := Except.ok.inj hr
    obtain ⟨rfl, hnames⟩ := ih hrest
    obtain ⟨_, hle, hl⟩ := bind_eq_ok_iff.1 hl
    have hle : raw.natAbs ≤ s.numVars := by simpa using require_eq_ok_iff.1 hle
    unfold Literal.ofInt at hl
    split at hl
    · exact absurd hl (by simp)
    · next hne =>
      have hl : Literal.ofSigned raw = l := by
        rw [← Except.ok.inj hl, Var.literal, Nat.mod_eq_of_lt (Nat.lt_of_le_of_lt hle hvars)]
        rfl
      subst hl
      refine ⟨rfl, fun k hk => ?_⟩
      rcases List.mem_cons.1 hk with rfl | hk
      · exact ⟨Nat.pos_of_ne_zero (Int.natAbs_ne_zero.2 hne), hle⟩
      · exact hnames k hk

/-! ## Variables and certificates -/

theorem varsFrom_eq {n count : Nat} :
    varsFrom ⟨n + 1⟩ (n + count) = (List.range' (n + 1) count).map Var.mk := by
  unfold varsFrom
  rw [show n + count + 1 - (n + 1) = count by omega]

/-- New variables only make room on the trail. -/
theorem trail_newVars {count : Nat} (hr : s.newVars count = .ok s') :
    s.trail.growTo (s.numVars + count) = .ok s'.trail := by
  obtain ⟨⟨first, k⟩, hk, hr⟩ := bind_eq_ok_iff.1 hr
  obtain ⟨rfl, t, w, ht, -, rfl⟩ := Kernel.newVars_eq_ok hk
  dsimp only at hr
  split at hr
  · obtain rfl := Except.ok.inj hr
    exact ht
  · obtain ⟨analyzer, -, hr⟩ := bind_eq_ok_iff.1 hr
    obtain ⟨s₁, hs₁, hr⟩ := bind_eq_ok_iff.1 hr
    obtain ⟨o, -, hr⟩ := bind_eq_ok_iff.1 hr
    obtain rfl := Except.ok.inj hr
    exact ht.trans (congrArg Except.ok (certify_eq_ok hs₁).1.trail.symm)

theorem numVars_newVars {count : Nat} (hr : s.newVars count = .ok s') :
    s'.numVars = s.numVars + count := (Trail.growTo_eq_ok (trail_newVars hr)).2.1

theorem Idle.newVars {count : Nat} (h : s.Idle F) (hr : s.newVars count = .ok s') :
    s'.Idle F ∧ s'.numVars = s.numVars + count := by
  obtain ⟨⟨first, k⟩, hk, hr⟩ := bind_eq_ok_iff.1 hr
  obtain ⟨rfl, t, w, ht, hw, rfl⟩ := Kernel.newVars_eq_ok hk
  obtain ⟨hmarks, hvars, -, hlimits, -⟩ := Trail.growTo_eq_ok ht
  have hlevel : t.level = 0 := (congrArg Array.size hlimits).trans h.level
  have hready : Kernel.Ready { s.kernel with trail := t, watches := w } := by
    have hfirm := h.ready.growTo (Nat.le_add_right _ _) ht hw
    rw [show s.kernel.trail.level = t.level from h.level.trans hlevel.symm] at hfirm
    exact hfirm
  have hfollows : s.kernel.Follows { s.kernel with trail := t, watches := w } :=
    Kernel.Follows.growTo ht
  dsimp only at hr
  by_cases hcount : count = 0
  · rw [if_pos hcount] at hr
    obtain rfl := Except.ok.inj hr
    have hcovers : s.order.Covers t :=
      h.keeps.covers.mono (by rw [hvars, hcount]; rfl) fun v hv => (hmarks v).symm.trans hv
    exact ⟨⟨⟨hready, h.keeps.follow hfollows hcovers, h.lists⟩, hlevel⟩, hvars⟩
  · rw [if_neg hcount] at hr
    obtain ⟨analyzer, hanalyzer, hr⟩ := bind_eq_ok_iff.1 hr
    obtain ⟨s₁, hs₁, hr⟩ := bind_eq_ok_iff.1 hr
    obtain ⟨o, ho, hr⟩ := bind_eq_ok_iff.1 hr
    obtain rfl := Except.ok.inj hr
    have hclear : analyzer.Clear := h.keeps.clear.grow hanalyzer
    obtain ⟨hlogs, hcases⟩ := certify_eq_ok hs₁
    have hcovers : o.Covers t := by
      have hnum : s₁.numVars = s.trail.vars + count := (congrArg Trail.vars hlogs.trail).trans hvars
      rw [hnum, show s.kernel.trail.vars = s.trail.vars from rfl, varsFrom_eq, hlogs.order] at ho
      have hoffers : o.Offers (s.trail.vars + count) fun v => s.trail.mark? v = none :=
        Order.Offers.addVars h.keeps.covers ho
      unfold Order.Covers
      rw [show t.vars = s.trail.vars + count from hvars]
      exact hoffers.mono fun v hv => (hmarks v).symm.trans hv
    have hkeeps : Keeps { s with
        kernel := { s.kernel with trail := t, watches := w }, analyzer, order := o } F :=
      { h.keeps.follow hfollows hcovers with clear := hclear }
    have hkeeps₁ : Keeps { s₁ with order := o } F := by
      rcases hcases with ⟨-, rfl⟩ | ⟨c, c', hc, hc', rfl⟩
      · exact hkeeps
      · obtain ⟨hempty, hcert⟩ := hkeeps.certified c hc
        have hempty' := (Certificate.growTo_eq_ok hc').2.1
        exact hkeeps.setCertificate (hempty'.trans hempty) (hcert.growTo hc')
    refine ⟨⟨⟨?_, hkeeps₁, ?_⟩, ?_⟩, (congrArg Trail.vars hlogs.trail).trans hvars⟩
    · exact hlogs.kernel ▸ hready
    · change s₁.store.Lists s₁.learnts
      rw [hlogs.store, hlogs.learnts]
      exact h.lists
    · exact (congrArg Trail.level hlogs.trail).trans hlevel

theorem Idle.enableCertificate (h : s.Idle F) (hr : s.enableCertificate = .ok s') :
    s'.Idle F ∧ s'.numVars = s.numVars := by
  obtain ⟨_, hfresh, hr⟩ := bind_eq_ok_iff.1 hr
  have hfresh := require_eq_ok_iff.1 hfresh
  split at hr
  · obtain rfl := Except.ok.inj hr
    exact ⟨h, rfl⟩
  · obtain ⟨c, hc, hr⟩ := bind_eq_ok_iff.1 hr
    obtain rfl := Except.ok.inj hr
    have hsize : s.store.size = 0 := by simp at hfresh; exact hfresh.1.1
    have hcert : c.Certifies s.trail s.store :=
      (Certificate.certifies_empty fun _ => Store.get?_of_size_eq_zero hsize).growTo hc
    have hempty : c.empty = none := (Certificate.growTo_eq_ok hc).2.1
    refine ⟨⟨⟨h.ready, { h.keeps with certified := fun d hd => ?_ }, h.lists⟩, h.level⟩, rfl⟩
    obtain rfl := Option.some.inj hd
    exact ⟨hempty, hcert⟩

/-! ## Consequences at level 0 -/

/-- What is left behind once the consequences at level 0 are found. -/
def Settles (s : Solver) (F : Formula) : Except SolverError Unit → Prop
  | .ok () => s.Idle F
  | .error (.contradiction _) => s.Refuted F
  | .error _ => False

theorem Idle.propagateRoot {o : Except SolverError Unit} (h : s.Idle F)
    (hr : s.propagateRoot = .ok (o, s')) : s.trail.Extends s'.trail ∧ s'.Settles F o := by
  obtain ⟨⟨conflict, s₁⟩, hs₁, hr⟩ := bind_eq_ok_iff.1 hr
  obtain ⟨h₁, hends, hlists, hext⟩ := h.propagate hs₁
  have hlevel : s₁.trail.level = 0 := hext.level.trans h.level
  cases conflict with
  | none =>
    obtain ⟨s₂, hs₂, hr⟩ := bind_eq_ok_iff.1 hr
    obtain ⟨rfl, rfl⟩ := Prod.mk.inj (Except.ok.inj hr)
    obtain ⟨h₂, hlogs⟩ := h₁.recordRoot hends.sound hlevel hs₂
    refine ⟨hlogs.trail.symm ▸ hext, ⟨hlogs.kernel ▸ hends.1, h₂, ?_⟩, ?_⟩
    · rw [hlogs.store, hlogs.learnts]
      exact hlists
    · rw [hlogs.trail]
      exact hlevel
  | some ref =>
    obtain ⟨s₂, hs₂, hr⟩ := bind_eq_ok_iff.1 hr
    obtain ⟨rfl, rfl⟩ := Prod.mk.inj (Except.ok.inj hr)
    obtain ⟨hrefuted, -, hkernel⟩ := h₁.rootConflict hends hlevel hs₂
    have htrail : s₂.trail = s₁.trail := congrArg Kernel.trail hkernel
    exact ⟨htrail.symm ▸ hext, hrefuted⟩

/-- The literal of the unit clause on offer is fixed. -/
theorem Idle.fix {s₁ : Solver} {f : Fault} (h : s.Idle F) (hname : s.trail.Names l)
    (hnone : s.trail.mark? l.var = none) (ho : s.Offers id [l])
    (hF : ∀ a : Assignment, F'.Holds a ↔ F.Holds a ∧ a.makes l = true)
    (hs₁ : s.assert l none f = .ok s₁) (hs' : s₁.certify (fun c => c.setUnit l.var id) = .ok s') :
    s'.Idle F' ∧ s'.trail = s.trail.push l none := by
  obtain ⟨h', hready, htrail, hstore, hlearnts⟩ :=
    h.keeps.fix h.ready h.level hname hnone ho hF hs₁ hs'
  refine ⟨⟨⟨hready, h', ?_⟩, ?_⟩, htrail⟩
  · rw [hstore, hlearnts]
    exact h.lists
  · rw [htrail]
    exact h.level

theorem Idle.assertUnit {o : Except SolverError Unit} (h : s.Idle F) (hname : s.trail.Names l)
    (hnone : s.trail.mark? l.var = none) (ho : s.Offers id [l])
    (hF : ∀ a : Assignment, F'.Holds a ↔ F.Holds a ∧ a.makes l = true)
    (hr : s.assertUnit l id = .ok (o, s')) :
    (s.trail.push l none).Extends s'.trail ∧ s'.Settles F' o := by
  obtain ⟨s₁, hs₁, hr⟩ := bind_eq_ok_iff.1 hr
  obtain ⟨s₂, hs₂, hr⟩ := bind_eq_ok_iff.1 hr
  obtain ⟨h₂, htrail⟩ := h.fix hname hnone ho hF hs₁ hs₂
  exact htrail ▸ h₂.propagateRoot hr

/-- Without a certificate several literals are asserted one after the other. -/
theorem Idle.assertAll (h : s.Idle F) (hcert : s.certificate = none)
    (hopen : Intake.Open s.trail ls) (hnames : ∀ l ∈ ls, s.trail.Names l)
    (hF : ∀ a : Assignment, F'.Holds a ↔ F.Holds a ∧ ∀ l ∈ ls, a.makes l = true)
    (hr : s.assertAll ls = .ok s') : s'.numVars = s.numVars ∧ s'.Idle F' := by
  induction ls generalizing s F with
  | nil =>
    obtain rfl := Except.ok.inj hr
    exact ⟨rfl, h.congr fun a => by simp [hF]⟩
  | cons l ls ih =>
    obtain ⟨s₁, hs₁, hr⟩ := bind_eq_ok_iff.1 hr
    have hdistinct := List.nodup_cons.1 hopen.distinct
    have hcert₁ : s₁.certificate = none := by
      obtain ⟨rfl, -⟩ | ⟨rfl, -⟩ := assert_eq_ok hs₁ <;> exact hcert
    have hskip : s₁.certify (fun c => c.setUnit l.var none) = .ok s₁ := certify_of_none hcert₁ _
    have hoffers : s.Offers none [l] := fun c hc => absurd (hcert.symm.trans hc) (by simp)
    have hone : ∀ a : Assignment, Formula.Holds (F ++ [Demand.clause [l]]) a ↔
        F.Holds a ∧ a.makes l = true := fun _ => Formula.holds_concat_unit
    obtain ⟨h₁, htrail⟩ := h.fix (hnames l List.mem_cons_self)
      (hopen.unassigned l List.mem_cons_self) hoffers hone hs₁ hskip
    have hopen₁ : Intake.Open s₁.trail ls := by
      refine ⟨fun k hk => ?_, hdistinct.2⟩
      rw [htrail, Trail.mark?_push_of_ne fun heq => hdistinct.1 (heq ▸ List.mem_map_of_mem hk)]
      exact hopen.unassigned k (List.mem_cons_of_mem l hk)
    have hnames₁ : ∀ k ∈ ls, s₁.trail.Names k := by
      rw [htrail]
      exact fun k hk => hnames k (List.mem_cons_of_mem l hk)
    have hnum₁ : s₁.numVars = s.numVars := (congrArg Trail.vars htrail :)
    obtain ⟨hnum, h'⟩ := ih h₁ hcert₁ hopen₁ hnames₁ (fun a => by simp [hF, hone, and_assoc]) hr
    exact ⟨hnum.trans hnum₁, h'⟩

/-! ## Clauses of the formula in the certificate -/

theorem Offers.congr {ms : List Literal} (h : s.Offers id ls)
    (hls : s.certificate ≠ none → ∀ l, l ∈ ls ↔ l ∈ ms) : s.Offers id ms := by
  intro c hc
  obtain ⟨hempty, i, hid, ho⟩ := h c hc
  exact ⟨hempty, i, hid, ho.congr (hls (by rw [hc]; simp))⟩

/-- A clause of the formula is recorded. Unless every literal is false, the others are on offer. -/
theorem Keeps.newClause (h : s.Keeps F) (ht : s.trail.Valid) (hsized : s.Sized)
    (hnames : ∀ l ∈ ls, s.trail.Names l)
    (hopen : s.certificate ≠ none → ∀ l ∈ ls, s.trail.holds l = false)
    (hr : s.certifyClause (fun p => p.newClause ls s.trail) = .ok (id, s')) :
    Logs s s' ∧ ((∃ l ∈ ls, s.trail.holds (-l) = false) →
        s'.Keeps F ∧ s'.Offers id (ls.filter fun l => !s.trail.holds (-l))) ∧
      ((∀ l ∈ ls, s.trail.holds (-l) = true) →
        ∀ c, s'.certificate = some c → ∃ i, c.empty = some i ∧ c.log.Refutes i) := by
  obtain ⟨hlogs, ⟨hnone, rfl⟩ | ⟨c, c', i, hc, hc', rfl, rfl⟩⟩ := certifyClause_eq_ok hr
  · have hno : ∀ {P : Prop} {c : Certificate}, s'.certificate = some c → P :=
      fun hc => absurd (hnone.symm.trans hc) (by simp)
    exact ⟨hlogs, fun _ => ⟨h, fun _ hc => hno hc⟩, fun _ _ hc => hno hc⟩
  · obtain ⟨hempty, es, q, hback⟩ := h.certified c hc
    have hfit : ∀ l ∈ ls, Event.LiteralFits l := fun l hl =>
      ⟨(hnames l hl).1, Nat.lt_of_le_of_lt (hnames l hl).2 (hsized.recorded (by simp [hc]))⟩
    obtain ⟨hoffers, hempty'⟩ := hback.newClause ht hfit (hopen (by rw [hc]; simp)) hc'
    refine ⟨hlogs, fun ⟨l, hl, hfree⟩ => ?_, fun hfalse d hd => ?_⟩
    · have hsome : ¬ (ls.all fun l => s.trail.holds (-l)) = true := by
        intro hall
        exact absurd (hfree.symm.trans (List.all_eq_true.1 hall l hl)) (by simp)
      rw [if_neg hsome] at hempty'
      refine ⟨h.setCertificate (hempty'.trans hempty) hoffers.certifies, fun d hd => ?_⟩
      obtain rfl := Option.some.inj hd
      exact ⟨hempty'.trans hempty, i, rfl, hoffers⟩
    · obtain rfl := Option.some.inj hd
      rw [if_pos (List.all_eq_true.2 hfalse)] at hempty'
      have hnil : (ls.filter fun l => !s.trail.holds (-l)) = [] := by simpa using hfalse
      rw [hnil] at hoffers
      exact ⟨i, hempty', hoffers.refutes⟩

/-- A clause of the formula is recorded, and what is left of it is on offer. -/
theorem Idle.newClause {rest : List Literal} (h : s.Idle F) (hsized : s.Sized)
    (hnames : ∀ l ∈ ls, s.trail.Names l) (hleft : Intake.Remains s.trail ls rest) (hne : rest ≠ [])
    (hr : s.certifyClause (fun p => p.newClause ls s.trail) = .ok (id, s')) :
    Logs s s' ∧ s'.Idle F ∧ s'.Offers id rest := by
  obtain ⟨hlogs, hrecords, -⟩ := h.keeps.newClause h.ready.sound.trail hsized hnames
    (fun _ l hl => hleft.not_holds h.ready.sound.trail hl) hr
  obtain ⟨l, hl⟩ := List.exists_mem_of_ne_nil rest hne
  obtain ⟨hkeeps, ho⟩ := hrecords ⟨l, (hleft.members l).1 hl⟩
  refine ⟨hlogs, ⟨⟨hlogs.kernel ▸ h.ready, hkeeps, ?_⟩, hlogs.trail ▸ h.level⟩, ?_⟩
  · rw [hlogs.store, hlogs.learnts]
    exact h.lists
  · refine ho.congr fun _ k => ?_
    rw [hleft.members k, List.mem_filter]
    simp

/-! ## Storing a constraint of the formula -/

theorem known_insert {known : Std.HashMap ConstraintKey ClauseRef} {key : ConstraintKey}
    {ref : ClauseRef} {e : Stored} {store : Store}
    (h : ∀ k r, known[k]? = some r →
      ∃ e, store.get? r = some e ∧ e.learnt = false ∧ e.constraint.key = k)
    (he : store.get? ref = some e) (hlearnt : e.learnt = false) (hkey : e.constraint.key = key) :
    ∀ k r, (known.insert key ref)[k]? = some r →
      ∃ e, store.get? r = some e ∧ e.learnt = false ∧ e.constraint.key = k := by
  intro k r hr
  rw [Std.HashMap.getElem?_insert] at hr
  split at hr
  · next heq =>
    obtain rfl := Option.some.inj hr
    exact ⟨e, he, hlearnt, hkey.trans (by simpa using heq)⟩
  · exact h k r hr

/-- A constraint over unassigned literals is stored; it is what is left of the demand. -/
theorem Idle.storeGiven {given : List Literal} (h : s.Idle F) (hsized : s.Sized)
    (hc : c.Valid) (hnames : ∀ l ∈ given, s.trail.Names l) (hsub : c.literals ⊆ given)
    (hopen : ∀ l ∈ c.literals, s.trail.mark? l.var = none)
    (hcert : s.certificate ≠ none → c.degree = 1 ∧ Intake.Remains s.trail given c.literals)
    (hd : ∀ a : Assignment, a.RespectsRoot s.trail → (d.Holds a ↔ c.demand.Holds a))
    (hr : s.storeGiven c given = .ok (what, s')) :
    s'.numVars = s.numVars ∧ s'.Idle (F ++ [d]) := by
  unfold Solver.storeGiven at hr
  split at hr
  · next ref href =>
    obtain ⟨-, rfl⟩ := Prod.mk.inj (Except.ok.inj hr)
    obtain ⟨e, he, hgiven, hkey⟩ := h.keeps.known _ _ href
    have hrep : s.kernel.Represents (F ++ [d]) := h.keeps.represents.add fun a ha =>
      (hd a ha.root).2 ((Constraint.holds_of_key_eq hkey a).1 (ha.given ref e he hgiven))
    have hkeeps : s.Keeps (F ++ [d]) := { h.keeps with represents := hrep }
    exact ⟨rfl, ⟨h.ready, hkeeps.note (by simp), h.lists⟩, h.level⟩
  · obtain ⟨⟨id, s₁⟩, hs₁, hr⟩ := bind_eq_ok_iff.1 hr
    obtain ⟨⟨ref, s₂⟩, hs₂, hr⟩ := bind_eq_ok_iff.1 hr
    obtain ⟨-, rfl⟩ := Prod.mk.inj (Except.ok.inj hr)
    obtain ⟨hlogs, hrecords, -⟩ := h.keeps.newClause h.ready.sound.trail hsized hnames
      (fun hsome l hl => (hcert hsome).2.not_holds h.ready.sound.trail hl) hs₁
    obtain ⟨l, hl, -⟩ := hc.exists_other ⟨0⟩
    obtain ⟨h₁, ho₁⟩ := hrecords ⟨l, hsub hl, (Trail.unassigned_iff.1 (hopen l hl)).2⟩
    obtain ⟨cert, journal, rfl⟩ : ∃ cert journal, s₁ = { s with certificate := cert, journal } :=
      ⟨_, _, hlogs⟩
    obtain ⟨rfl, w, hw, rfl⟩ := insertConstraint_eq_ok hs₂
    have hcert₁ : cert ≠ none → c.degree = 1 ∧ Intake.Remains s.trail given c.literals :=
      fun hsome => hcert (certificate_of_certifyClause hs₁ hsome)
    have hoffers : Solver.Offers { s with certificate := cert, journal } id c.literals := by
      refine ho₁.congr fun hsome k => ?_
      rw [(hcert₁ hsome).2.members k, List.mem_filter]
      simp
    have hrep : Kernel.Represents { s.kernel with
        store := (s.store.insert ⟨c, 0.0, false, id⟩).2, watches := w } (F ++ [d]) :=
      h₁.represents.insert rfl hd
    have h₂ := h₁.insert (e := ⟨c, 0.0, false, id⟩) rfl hoffers (fun hsome => (hcert₁ hsome).1) hrep
    have hready := h.ready.insert (e := ⟨c, 0.0, false, id⟩) hc (fun l hl => hnames l (hsub hl))
      hopen hw
    exact ⟨rfl, ⟨hready, { h₂ with
      known := known_insert h₂.known Store.get?_insert_self rfl rfl }, lists_insert h.lists⟩, h.level⟩

/-! ## Additions -/

/-- What an addition leaves behind. -/
def Takes (s s' : Solver) (F : Formula) (d : Demand) : Added → Prop
  | .ok _ => s'.Idle (F ++ [d])
  | .error (.contradiction _) => s'.Refuted (F ++ [d])
  | .error .certificateUnsupported => s' = s
  | .error .timeout => False

theorem Settles.takes {o : Except SolverError Unit} (h : s'.Settles (F ++ [d]) o) :
    s.Takes s' F d (handleOf o what) := by
  cases o with
  | ok u => exact h
  | error e =>
    cases e with
    | contradiction cause => exact h
    | timeout => exact h.elim
    | certificateUnsupported => exact h.elim

/-- What is left of a demand holds with the formula if and only if the demand does. -/
theorem Idle.holds_concat {P : Assignment → Prop} (h : s.Idle F)
    (hd : ∀ a : Assignment, a.Respects s.trail → (d.Holds a ↔ P a)) (a : Assignment) :
    Formula.Holds (F ++ [d]) a ↔ F.Holds a ∧ P a := by
  rw [Formula.holds_concat]
  refine and_congr_right fun ha => hd a ?_
  exact h.ready.sound.trail.respects_of_root h.level ((h.keeps.represents.meets a).1 ha).root

/-- A demand that holds anyway changes nothing. -/
theorem Idle.satisfied (h : s.Idle F)
    (hd : ∀ a : Assignment, a.Respects s.trail → d.Holds a) : s.Idle (F ++ [d]) := by
  refine h.congr fun a => ?_
  rw [h.holds_concat fun a ha => iff_true_intro (hd a ha), and_true]

/-- A demand that cannot hold refutes the formula. -/
theorem Idle.unsatisfiable (h : s.Idle F)
    (hd : ∀ a : Assignment, a.Respects s.trail → ¬ d.Holds a) :
    ¬ Formula.Satisfiable (F ++ [d]) := by
  rintro ⟨a, ha⟩
  exact ((h.holds_concat fun a ha => iff_false_intro (hd a ha)) a).1 ha |>.2

theorem Idle.addLiterals (h : s.Idle F) (hsized : s.Sized)
    (hnames : ∀ l ∈ ls, s.trail.Names l) (hr : s.addLiterals ls = .ok (r, s')) :
    s'.numVars = s.numVars ∧ s.Takes s' F (Demand.clause ls) r := by
  unfold Solver.addLiterals at hr
  rw [if_neg (by simp [h.keeps.undecided])] at hr
  obtain ⟨form, hform, hr⟩ := bind_eq_ok_iff.1 hr
  have htaken := Intake.clause_eq_ok hform
  have hvalid : s.trail.Valid := h.ready.sound.trail
  split at hr
  · next cause =>
    obtain ⟨⟨id, s₁⟩, hs₁, hr⟩ := bind_eq_ok_iff.1 hr
    obtain ⟨rfl, rfl⟩ := Prod.mk.inj (Except.ok.inj hr)
    obtain ⟨hlogs, -, hrefutes⟩ := h.keeps.newClause hvalid hsized hnames
      (fun _ l hl => by simpa using hvalid.consistent (htaken l hl)) hs₁
    refine ⟨congrArg (fun k => k.trail.vars) hlogs.kernel, rfl, ?_, hrefutes htaken⟩
    refine h.unsatisfiable fun a ha => ?_
    rw [Demand.holds_clause]
    rintro ⟨l, hl, hal⟩
    have := ha (-l) (htaken l hl)
    simp [hal] at this
  · obtain ⟨rfl, rfl⟩ := Prod.mk.inj (Except.ok.inj hr)
    exact ⟨rfl, h.satisfied fun a ha => Demand.holds_clause.2 (htaken a ha)⟩
  · next l =>
    have hleft : Intake.Remains s.trail ls [l] := htaken
    obtain ⟨⟨id, s₁⟩, hs₁, hr⟩ := bind_eq_ok_iff.1 hr
    obtain ⟨⟨o, s₂⟩, hs₂, hr⟩ := bind_eq_ok_iff.1 hr
    obtain ⟨rfl, rfl⟩ := Prod.mk.inj (Except.ok.inj hr)
    obtain ⟨hl, -⟩ := (hleft.members l).1 List.mem_cons_self
    obtain ⟨hlogs, hidle, hoffers⟩ := h.newClause hsized hnames hleft (by simp) hs₁
    obtain ⟨cert, journal, rfl⟩ : ∃ cert journal, s₁ = { s with certificate := cert, journal } :=
      ⟨_, _, hlogs⟩
    obtain ⟨hext, hsettles⟩ := hidle.assertUnit (hnames l hl)
      (hleft.unassigned l List.mem_cons_self) hoffers
      (h.holds_concat fun a ha => by
        rw [Demand.holds_clause, hleft.satisfies_iff ha, Assignment.satisfies_singleton]) hs₂
    exact ⟨hext.vars, hsettles.takes⟩
  · next rest =>
    obtain ⟨hleft, -⟩ : Intake.Remains s.trail ls rest ∧ 2 ≤ rest.length := htaken
    obtain ⟨c, hc, hr⟩ := bind_eq_ok_iff.1 hr
    obtain ⟨⟨what, s₁⟩, hs₁, hr⟩ := bind_eq_ok_iff.1 hr
    obtain ⟨rfl, rfl⟩ := Prod.mk.inj (Except.ok.inj hr)
    obtain ⟨hvalid', hdegree, rfl⟩ := Constraint.clause_eq_ok hc hleft.distinct
    refine h.storeGiven hsized hvalid' hnames (fun l hl => ((hleft.members l).1 hl).1)
      hleft.unassigned (fun _ => ⟨hdegree, hleft⟩) (fun a ha => ?_) hs₁
    rw [Demand.holds_clause, Constraint.holds_iff_satisfies hdegree]
    exact hleft.satisfies_iff (hvalid.respects_of_root h.level ha)

/-- The demand that an at-least constraint adds: repeated literals count as the intake counts them. -/
theorem Idle.addCardinality_counted {degree : Nat} (h : s.Idle F)
    (hsized : s.Sized) (hcert : s.certificate = none)
    (hls : ∀ l ∈ ls, s.trail.Names l) (hdegree : degree < Word.addressable)
    (hr : s.addCardinality ls degree = .ok (r, s')) :
    s'.numVars = s.numVars ∧ s.Takes s' F ⟨degree, Intake.counted s.trail ls⟩ r := by
  obtain ⟨form, hform, hr⟩ := bind_eq_ok_iff.1 hr
  have htaken := Intake.atLeast_eq_ok hdegree hform
  have hnames : ∀ l ∈ Intake.counted s.trail ls, s.trail.Names l :=
    fun l hl => hls l (Intake.counted_subset hl)
  have hrespects : ∀ a : Assignment, a.RespectsRoot s.trail → a.Respects s.trail :=
    fun a => h.ready.sound.trail.respects_of_root h.level
  have hno : ∀ {P : Prop}, s.certificate ≠ none → P := fun hsome => absurd hcert hsome
  have hoffers : ∀ l, s.Offers none [l] := fun l c hc => hno (by rw [hc]; simp)
  split at hr
  · obtain ⟨rfl, rfl⟩ := Prod.mk.inj (Except.ok.inj hr)
    exact ⟨rfl, rfl, h.unsatisfiable htaken, fun c hc => hno (hc ▸ by simp)⟩
  · obtain ⟨rfl, rfl⟩ := Prod.mk.inj (Except.ok.inj hr)
    exact ⟨rfl, h.satisfied htaken⟩
  · obtain ⟨kept, -, hkept, hcount⟩ := htaken
    obtain ⟨rfl, rfl⟩ := Prod.mk.inj (Except.ok.inj hr)
    exact ⟨rfl, h.satisfied fun a ha => (hcount a ha).2 (hkept a ha)⟩
  · next units =>
    obtain ⟨hopen, hsub, hcount⟩ := htaken
    obtain ⟨s₁, hs₁, hr⟩ := bind_eq_ok_iff.1 hr
    obtain ⟨⟨o, s₂⟩, hs₂, hr⟩ := bind_eq_ok_iff.1 hr
    obtain ⟨rfl, rfl⟩ := Prod.mk.inj (Except.ok.inj hr)
    obtain ⟨hnum₁, h₁⟩ := h.assertAll hcert hopen (fun l hl => hnames l (hsub hl))
      (h.holds_concat (d := ⟨degree, Intake.counted s.trail ls⟩) hcount) hs₁
    obtain ⟨hext, hsettles⟩ := h₁.propagateRoot hs₂
    exact ⟨hext.vars.trans hnum₁, hsettles.takes⟩
  · next l =>
    obtain ⟨kept, hsub, hkept, hcount⟩ := htaken
    have hleft : Intake.Remains s.trail kept [l] := hkept
    obtain ⟨⟨o, s₁⟩, hs₁, hr⟩ := bind_eq_ok_iff.1 hr
    obtain ⟨rfl, rfl⟩ := Prod.mk.inj (Except.ok.inj hr)
    have hl := ((hleft.members l).1 List.mem_cons_self).1
    obtain ⟨hext, hsettles⟩ := h.assertUnit (hnames l (hsub hl))
      (hleft.unassigned l List.mem_cons_self) (hoffers l)
      (h.holds_concat (d := ⟨degree, Intake.counted s.trail ls⟩) fun a ha => by
        rw [Demand.Holds, hcount a ha, hleft.satisfies_iff ha, Assignment.satisfies_singleton]) hs₁
    exact ⟨hext.vars, hsettles.takes⟩
  · next rest =>
    obtain ⟨kept, hsub, ⟨hleft, -⟩, hcount⟩ := htaken
    obtain ⟨c, hc, hr⟩ := bind_eq_ok_iff.1 hr
    obtain ⟨⟨what, s₁⟩, hs₁, hr⟩ := bind_eq_ok_iff.1 hr
    obtain ⟨rfl, rfl⟩ := Prod.mk.inj (Except.ok.inj hr)
    obtain ⟨hvalid, hone, rfl⟩ := Constraint.clause_eq_ok hc hleft.distinct
    refine h.storeGiven hsized hvalid hls
      (fun l hl => Intake.counted_subset (hsub ((hleft.members l).1 hl).1)) hleft.unassigned hno
      (fun a ha => ?_) hs₁
    rw [Demand.Holds, hcount a (hrespects a ha), Constraint.holds_iff_satisfies hone]
    exact hleft.satisfies_iff (hrespects a ha)
  · next rest d =>
    obtain ⟨hopen, hsub, hcount⟩ := htaken
    obtain ⟨c, hc, hr⟩ := bind_eq_ok_iff.1 hr
    obtain ⟨⟨what, s₁⟩, hs₁, hr⟩ := bind_eq_ok_iff.1 hr
    obtain ⟨rfl, rfl⟩ := Prod.mk.inj (Except.ok.inj hr)
    obtain ⟨hvalid, rfl, rfl⟩ := Constraint.atLeastOf_eq_ok hc hopen.distinct
    exact h.storeGiven hsized hvalid (fun l hl => hnames l (hsub hl)) (fun l hl => hl)
      hopen.unassigned hno (fun a ha => hcount a (hrespects a ha)) hs₁

/-- Demands that say the same as far as the formula holds. -/
theorem Takes.congr {d' : Demand} (h : s.Takes s' F d r)
    (hd : ∀ a : Assignment, F.Holds a → (d'.Holds a ↔ d.Holds a)) : s.Takes s' F d' r := by
  have hF : ∀ a : Assignment, Formula.Holds (F ++ [d']) a ↔ Formula.Holds (F ++ [d]) a := by
    intro a
    rw [Formula.holds_concat, Formula.holds_concat]
    exact and_congr_right (hd a)
  cases r with
  | ok what => exact Idle.congr h hF
  | error e =>
    cases e with
    | contradiction cause =>
      have hrefuted : s'.Refuted (F ++ [d]) := h
      exact ⟨hrefuted.refuted, fun ⟨a, ha⟩ => hrefuted.unsatisfiable ⟨a, (hF a).1 ha⟩,
        hrefuted.certified⟩
    | certificateUnsupported => exact h
    | timeout => exact h

/-- The models of the formula make the literals on the trail true. -/
theorem Idle.respects (h : s.Idle F) {a : Assignment} (ha : F.Holds a) : a.Respects s.trail :=
  h.ready.sound.trail.respects_of_root h.level ((h.keeps.represents.meets a).1 ha).root

/-- A demand that repetitions make no difference to may be counted as the intake counts it. -/
theorem Idle.holds_counted_iff (h : s.Idle F) (hd : d.Regular) {a : Assignment} (ha : F.Holds a) :
    d.Holds a ↔ Demand.Holds ⟨d.degree, Intake.counted s.trail d.literals⟩ a := by
  have hrespects := h.respects ha
  exact ⟨fun hle => Nat.le_trans (hd a hle) (Intake.le_count_counted hrespects),
    fun hle => Nat.le_trans hle (Intake.count_counted_le hrespects)⟩

theorem Idle.addClause {raws : List Int} (h : s.Idle F) (hsized : s.Sized)
    (hr : s.addClause raws = .ok (r, s')) :
    s'.numVars = s.numVars ∧ s.Takes s' F (Demand.clause (raws.map Literal.ofSigned)) r := by
  obtain ⟨ls, hls, hr⟩ := bind_eq_ok_iff.1 hr
  obtain ⟨rfl, hnames⟩ := literals_eq_ok hsized.signed hls
  exact h.addLiterals hsized hnames hr

/-- The demand that an at-least constraint adds, whether its literals repeat or not. -/
theorem Idle.addAtLeast_counted {raws : List Int} {degree : Nat} (h : s.Idle F)
    (hsized : s.Sized) (hdegree : degree < Word.addressable)
    (hr : s.addAtLeast raws degree = .ok (r, s')) :
    s'.numVars = s.numVars ∧
      s.Takes s' F ⟨degree, Intake.counted s.trail (raws.map Literal.ofSigned)⟩ r := by
  obtain ⟨ls, hls, hr⟩ := bind_eq_ok_iff.1 hr
  obtain ⟨rfl, hnames⟩ := literals_eq_ok hsized.signed hls
  rw [if_neg (by simp [h.keeps.undecided])] at hr
  split at hr
  · split at hr
    · obtain ⟨rfl, rfl⟩ := Prod.mk.inj (Except.ok.inj hr)
      exact ⟨rfl, h.satisfied fun a _ => Nat.zero_le _⟩
    · obtain ⟨hnum, htakes⟩ := h.addLiterals hsized hnames hr
      exact ⟨hnum, htakes.congr fun a ha => (h.holds_counted_iff (Demand.regular_clause _) ha).symm⟩
    · obtain ⟨rfl, rfl⟩ := Prod.mk.inj (Except.ok.inj hr)
      exact ⟨rfl, rfl⟩
  · next hcert =>
    exact h.addCardinality_counted hsized (by simpa using hcert) hnames hdegree hr

/-- An at-least constraint adds what it says if repetitions make no difference. -/
theorem Idle.addAtLeast_regular {raws : List Int} {degree : Nat} (h : s.Idle F)
    (hsized : s.Sized) (hdegree : degree < Word.addressable)
    (hregular : Demand.Regular ⟨degree, raws.map Literal.ofSigned⟩)
    (hr : s.addAtLeast raws degree = .ok (r, s')) :
    s'.numVars = s.numVars ∧ s.Takes s' F ⟨degree, raws.map Literal.ofSigned⟩ r := by
  obtain ⟨hnum, htakes⟩ := h.addAtLeast_counted hsized hdegree hr
  exact ⟨hnum, htakes.congr fun a ha => h.holds_counted_iff hregular ha⟩

theorem Idle.addAtLeast {raws : List Int} {degree : Nat} (h : s.Idle F)
    (hsized : s.Sized) (hraws : raws.Nodup) (hdegree : degree < Word.addressable)
    (hr : s.addAtLeast raws degree = .ok (r, s')) :
    s'.numVars = s.numVars ∧ s.Takes s' F ⟨degree, raws.map Literal.ofSigned⟩ r :=
  h.addAtLeast_regular hsized hdegree
    (Demand.regular_of_nodup (hraws.map fun _ _ => Literal.ofSigned_injective)) hr

/-! ## Failures -/

theorem propagateRoot_error {e : SolverError} (hr : s.propagateRoot = .ok (.error e, s')) :
    e = .contradiction .unitConflict := by
  obtain ⟨⟨conflict, s₁⟩, -, hr⟩ := bind_eq_ok_iff.1 hr
  cases conflict with
  | none =>
    obtain ⟨s₂, -, hr⟩ := bind_eq_ok_iff.1 hr
    simp at hr
  | some ref =>
    obtain ⟨s₂, -, hr⟩ := bind_eq_ok_iff.1 hr
    simp only [Except.ok.injEq, Prod.mk.injEq, Except.error.injEq] at hr
    exact hr.1.symm

theorem assertUnit_error {e : SolverError} (hr : s.assertUnit l id = .ok (.error e, s')) :
    e = .contradiction .unitConflict := by
  obtain ⟨s₁, -, hr⟩ := bind_eq_ok_iff.1 hr
  obtain ⟨s₂, -, hr⟩ := bind_eq_ok_iff.1 hr
  exact propagateRoot_error hr

theorem handleOf_eq_error {o : Except SolverError Unit} {e : SolverError}
    (h : handleOf o what = .error e) : o = .error e := by
  cases o with
  | ok u => exact absurd h (by simp [handleOf])
  | error e' => exact congrArg Except.error (Except.error.inj h)

/-- A clause that cannot be added contradicts the others. -/
theorem addLiterals_error {e : SolverError} (hr : s.addLiterals ls = .ok (.error e, s')) :
    ∃ cause, e = .contradiction cause := by
  unfold addLiterals at hr
  split at hr
  · exact ⟨_, (Except.error.inj (Prod.mk.inj (Except.ok.inj hr)).1).symm⟩
  · obtain ⟨form, -, hr⟩ := bind_eq_ok_iff.1 hr
    split at hr
    · obtain ⟨⟨id, s₁⟩, -, hr⟩ := bind_eq_ok_iff.1 hr
      exact ⟨_, (Except.error.inj (Prod.mk.inj (Except.ok.inj hr)).1).symm⟩
    · simp at hr
    · obtain ⟨⟨id, s₁⟩, -, hr⟩ := bind_eq_ok_iff.1 hr
      obtain ⟨⟨o, s₂⟩, hs₂, hr⟩ := bind_eq_ok_iff.1 hr
      obtain rfl := handleOf_eq_error (Prod.mk.inj (Except.ok.inj hr)).1
      exact ⟨_, assertUnit_error hs₂⟩
    · obtain ⟨c, -, hr⟩ := bind_eq_ok_iff.1 hr
      obtain ⟨⟨what, s₁⟩, -, hr⟩ := bind_eq_ok_iff.1 hr
      simp at hr

/-- An at-least constraint that cannot be added contradicts the others. -/
theorem addCardinality_error {degree : Nat} {e : SolverError}
    (hr : s.addCardinality ls degree = .ok (.error e, s')) : ∃ cause, e = .contradiction cause := by
  obtain ⟨form, -, hr⟩ := bind_eq_ok_iff.1 hr
  split at hr
  · exact ⟨_, (Except.error.inj (Prod.mk.inj (Except.ok.inj hr)).1).symm⟩
  · simp at hr
  · simp at hr
  · obtain ⟨s₁, -, hr⟩ := bind_eq_ok_iff.1 hr
    obtain ⟨⟨o, s₂⟩, hs₂, hr⟩ := bind_eq_ok_iff.1 hr
    obtain rfl := handleOf_eq_error (Prod.mk.inj (Except.ok.inj hr)).1
    exact ⟨_, propagateRoot_error hs₂⟩
  · obtain ⟨⟨o, s₁⟩, hs₁, hr⟩ := bind_eq_ok_iff.1 hr
    obtain rfl := handleOf_eq_error (Prod.mk.inj (Except.ok.inj hr)).1
    exact ⟨_, assertUnit_error hs₁⟩
  · obtain ⟨c, -, hr⟩ := bind_eq_ok_iff.1 hr
    obtain ⟨⟨what, s₁⟩, -, hr⟩ := bind_eq_ok_iff.1 hr
    simp at hr
  · obtain ⟨c, -, hr⟩ := bind_eq_ok_iff.1 hr
    obtain ⟨⟨what, s₁⟩, -, hr⟩ := bind_eq_ok_iff.1 hr
    simp at hr

/-- Without a certificate an at-least constraint that cannot be added contradicts the others. -/
theorem addAtLeast_error {raws : List Int} {degree : Nat} {e : SolverError}
    (hcert : s.certificate = none) (hr : s.addAtLeast raws degree = .ok (.error e, s')) :
    ∃ cause, e = .contradiction cause := by
  obtain ⟨ls, -, hr⟩ := bind_eq_ok_iff.1 hr
  split at hr
  · exact ⟨_, (Except.error.inj (Prod.mk.inj (Except.ok.inj hr)).1).symm⟩
  · rw [if_neg (by simp [hcert])] at hr
    exact addCardinality_error hr

end Solver
end Cdcl
