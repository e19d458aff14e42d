import Cdcl.Proofs.Solver.Searching

/-!
# Sessions

A `Session` is a solver with the calls that were made of it since it was created, in any order, and
what they returned. `formula` lists what was added in these calls. Every session is idle for its
formula or refuted (`Session.stands`), and a refuted one remains so (`Refuted.perform_eq_ok`). What
remains of a new clause is stored, asserted or contradictory (`perform_addClause_of_new`,
`addClause_of_unit`, `addClause_of_contradiction`).
-/

namespace Cdcl
set_option autoImplicit false

/-- A call of an operation of a solver. -/
inductive Call where
  | newVars (count : Nat)
  | addClause (raws : List Int)
  | addAtLeast (raws : List Int) (degree : Nat)
  | solve (fuel : Nat) (assumptions : List Int)
  | limitTime (limit : Option Nat)
  | limitConflicts (limit : Option Nat)
  | enableCertificate

/-- What a call returns. -/
inductive Reply where
  | done
  | added (r : Added)
  | answered (v : Verdict)

/-- A call and what it returned. -/
abbrev Exchange := Call × Reply

/-- The literals of an at-least constraint do not repeat, and its degree is a signed word. -/
def Call.Admissible : Call → Prop
  | .addAtLeast raws degree => raws.Nodup ∧ degree < Word.addressable
  | _ => True

/-- What an exchange adds to the formula. An at-least constraint that is refused because of the
certificate adds nothing. -/
def Exchange.demands : Exchange → Formula
  | (_, .added (.error .certificateUnsupported)) => []
  | (.addClause raws, _) => [Demand.clause (raws.map Literal.ofSigned)]
  | (.addAtLeast raws degree, _) => [⟨degree, raws.map Literal.ofSigned⟩]
  | _ => []

/-- Everything that was added in a history of calls. -/
def formula (es : List Exchange) : Formula := es.flatMap Exchange.demands

/-- An addition returned a contradiction. -/
def Reply.Contradicts : Reply → Prop
  | .added (.error (.contradiction _)) => True
  | _ => False

/-- Some addition in a history returned a contradiction. -/
def Contradicted (es : List Exchange) : Prop := ∃ x ∈ es, x.2.Contradicts

namespace Solver

/-- Makes a call. -/
def perform (s : Solver) : Call → Except Fault (Reply × Solver)
  | .newVars count => do
    let s ← s.newVars count
    .ok (.done, s)
  | .addClause raws => do
    let (r, s) ← s.addClause raws
    .ok (.added r, s)
  | .addAtLeast raws degree => do
    let (r, s) ← s.addAtLeast raws degree
    .ok (.added r, s)
  | .solve fuel assumptions => do
    let (v, s) ← s.solve fuel assumptions
    .ok (.answered v, s)
  | .limitTime timeLimit => .ok (.done, { s with timeLimit })
  | .limitConflicts conflictLimit => .ok (.done, { s with conflictLimit })
  | .enableCertificate => do
    let s ← s.enableCertificate
    .ok (.done, s)

/-- What a call with a result did. -/
inductive Performs (s : Solver) : Call → Reply → Solver → Prop where
  | newVars {count : Nat} {s' : Solver} (h : s.newVars count = .ok s') :
      Performs s (.newVars count) .done s'
  | addClause {raws : List Int} {a : Added} {s' : Solver} (h : s.addClause raws = .ok (a, s')) :
      Performs s (.addClause raws) (.added a) s'
  | addAtLeast {raws : List Int} {degree : Nat} {a : Added} {s' : Solver}
      (h : s.addAtLeast raws degree = .ok (a, s')) :
      Performs s (.addAtLeast raws degree) (.added a) s'
  | solve {fuel : Nat} {raws : List Int} {v : Verdict} {s' : Solver}
      (h : s.solve fuel raws = .ok (v, s')) : Performs s (.solve fuel raws) (.answered v) s'
  | limitTime (timeLimit : Option Nat) :
      Performs s (.limitTime timeLimit) .done { s with timeLimit }
  | limitConflicts (conflictLimit : Option Nat) :
      Performs s (.limitConflicts conflictLimit) .done { s with conflictLimit }
  | enableCertificate {s' : Solver} (h : s.enableCertificate = .ok s') :
      Performs s .enableCertificate .done s'

theorem performs_of_eq_ok {s s' : Solver} {c : Call} {r : Reply} (hr : s.perform c = .ok (r, s')) :
    s.Performs c r s' := by
  cases c with
  | newVars count =>
    obtain ⟨s₁, hs₁, hr⟩ := bind_eq_ok_iff.1 hr
    obtain ⟨rfl, rfl⟩ := Prod.mk.inj (Except.ok.inj hr)
    exact .newVars hs₁
  | addClause raws =>
    obtain ⟨⟨a, s₁⟩, hs₁, hr⟩ := bind_eq_ok_iff.1 hr
    obtain ⟨rfl, rfl⟩ := Prod.mk.inj (Except.ok.inj hr)
    exact .addClause hs₁
  | addAtLeast raws degree =>
    obtain ⟨⟨a, s₁⟩, hs₁, hr⟩ := bind_eq_ok_iff.1 hr
    obtain ⟨rfl, rfl⟩ := Prod.mk.inj (Except.ok.inj hr)
    exact .addAtLeast hs₁
  | solve fuel raws =>
    obtain ⟨⟨v, s₁⟩, hs₁, hr⟩ := bind_eq_ok_iff.1 hr
    obtain ⟨rfl, rfl⟩ := Prod.mk.inj (Except.ok.inj hr)
    exact .solve hs₁
  | limitTime limit =>
    obtain ⟨rfl, rfl⟩ := Prod.mk.inj (Except.ok.inj hr)
    exact .limitTime limit
  | limitConflicts limit =>
    obtain ⟨rfl, rfl⟩ := Prod.mk.inj (Except.ok.inj hr)
    exact .limitConflicts limit
  | enableCertificate =>
    obtain ⟨s₁, hs₁, hr⟩ := bind_eq_ok_iff.1 hr
    obtain ⟨rfl, rfl⟩ := Prod.mk.inj (Except.ok.inj hr)
    exact .enableCertificate hs₁

end Solver

/-- Calls made one after the other, with fewer than 2³⁰ variables all along. -/
inductive Steps : Solver → List Exchange → Solver → Prop where
  | nil (s : Solver) : Steps s [] s
  | snoc {s s' s'' : Solver} {es : List Exchange} {c : Call} {r : Reply} (h : Steps s es s')
      (hc : c.Admissible) (hr : s'.perform c = .ok (r, s'')) (hvars : s''.numVars < Event.varLimit) :
      Steps s (es ++ [(c, r)]) s''

/-- A solver and the calls made of it since it was created. -/
def Session (s : Solver) (es : List Exchange) : Prop :=
  ∃ config s₀, Solver.create config = .ok s₀ ∧ Steps s₀ es s

/-- A solver for the formula of a history, which is refuted if a contradiction or a conflict at
level 0 was met and idle otherwise. -/
def Solver.Stands (s : Solver) (es : List Exchange) : Prop :=
  (s.Idle (formula es) ∧ ¬ Contradicted es) ∨
    (s.Refuted (formula es) ∧ (Contradicted es ∨ Notice.rootConflict ∈ s.journal))

variable {s s' s'' : Solver} {F : Formula} {d : Demand} {es fs : List Exchange} {c : Call}
  {r : Reply}

theorem formula_append : formula (es ++ fs) = formula es ++ formula fs := List.flatMap_append

theorem formula_concat {x : Exchange} : formula (es ++ [x]) = formula es ++ x.demands := by
  rw [formula_append]
  simp [formula]

theorem contradicted_concat {x : Exchange} :
    Contradicted (es ++ [x]) ↔ Contradicted es ∨ x.2.Contradicts := by
  simp [Contradicted, or_and_right, exists_or]

theorem Steps.exists_of_mem {x : Exchange} (h : Steps s fs s') (hx : x ∈ fs) :
    ∃ es₁ es₂ s₁ s₂, fs = es₁ ++ x :: es₂ ∧ Steps s es₁ s₁ ∧ s₁.perform x.1 = .ok (x.2, s₂) ∧
      Steps s₂ es₂ s' := by
  induction h with
  | nil => exact absurd hx (by simp)
  | snoc h₁ hc hr hvars ih =>
    rcases List.mem_append.1 hx with hx | hx
    · obtain ⟨es₁, es₂, s₁, s₂, rfl, hbefore, hcall, hafter⟩ := ih hx
      exact ⟨es₁, es₂ ++ [_], s₁, s₂, by simp, hbefore, hcall, hafter.snoc hc hr hvars⟩
    · obtain rfl := List.mem_singleton.1 hx
      exact ⟨_, [], _, _, rfl, h₁, hr, Steps.nil _⟩

theorem Steps.append (h : Steps s es s') (h' : Steps s' fs s'') : Steps s (es ++ fs) s'' := by
  induction h' with
  | nil => simpa using h
  | snoc h₁ hc hr hvars ih =>
    rw [← List.append_assoc]
    exact ih.snoc hc hr hvars

namespace Solver

/-! ## Refuted solvers -/

/-- Notices of conflicts at level 0 and the log stay. -/
structure Persists (s s' : Solver) : Prop where
  journal : Notice.rootConflict ∈ s.journal → Notice.rootConflict ∈ s'.journal
  log : ∀ c, s.certificate = some c → ∃ c', s'.certificate = some c' ∧ c'.log = c.log

theorem Persists.of_eq (hj : Notice.rootConflict ∈ s.journal → Notice.rootConflict ∈ s'.journal)
    (hc : s'.certificate = s.certificate) : s.Persists s' :=
  ⟨hj, fun c h => ⟨c, hc.trans h, rfl⟩⟩

theorem Persists.trans (h : s.Persists s') (h' : s'.Persists s'') : s.Persists s'' := by
  refine ⟨fun hj => h'.journal (h.journal hj), fun c hc => ?_⟩
  obtain ⟨c', hc', hlog⟩ := h.log c hc
  obtain ⟨c'', hc'', hlog'⟩ := h'.log c' hc'
  exact ⟨c'', hc'', hlog'.trans hlog⟩

theorem Refuted.append {G : Formula} (h : s.Refuted F) : s.Refuted (F ++ G) :=
  ⟨h.refuted, fun ⟨a, ha⟩ => h.unsatisfiable ⟨a, fun d hd => ha d (List.mem_append_left G hd)⟩,
    h.certified⟩

theorem Refuted.newVars {count : Nat} (h : s.Refuted F) (hr : s.newVars count = .ok s') :
    s'.Refuted F ∧ s.Persists s' := by
  obtain ⟨⟨first, k⟩, hk, hr⟩ := bind_eq_ok_iff.1 hr
  dsimp only at hr
  cases first with
  | none =>
    obtain rfl := Except.ok.inj hr
    exact ⟨h.of_eq rfl rfl, Persists.of_eq id rfl⟩
  | some v =>
    obtain ⟨analyzer, -, hr⟩ := bind_eq_ok_iff.1 hr
    obtain ⟨s₁, hs₁, hr⟩ := bind_eq_ok_iff.1 hr
    obtain ⟨o, ho, hr⟩ := bind_eq_ok_iff.1 hr
    obtain rfl := Except.ok.inj hr
    obtain ⟨-, ⟨-, rfl⟩ | ⟨c, c', hc, hc', rfl⟩⟩ := certify_eq_ok hs₁
    · exact ⟨h.of_eq rfl rfl, Persists.of_eq id rfl⟩
    · obtain ⟨-, hempty, hlog⟩ := Certificate.growTo_eq_ok hc'
      obtain ⟨i, hi, hrefutes⟩ := h.certified c hc
      refine ⟨⟨h.refuted, h.unsatisfiable, fun d hd => ?_⟩,
        fun hj => Array.mem_append_left _ hj, fun d hd => ⟨c', rfl, ?_⟩⟩
      · obtain rfl := Option.some.inj hd
        exact ⟨i, hempty.trans hi, hlog ▸ hrefutes⟩
      · rw [hlog, Option.some.inj (hc.symm.trans hd)]

/-- A refuted solver refuses whatever is added. -/
theorem Refuted.addLiterals {ls : List Literal} {a : Added} (h : s.Refuted F)
    (hr : s.addLiterals ls = .ok (a, s')) : s' = s ∧ a = .error (.contradiction .earlier) := by
  unfold Solver.addLiterals at hr
  rw [if_pos h.refuted] at hr
  obtain ⟨rfl, rfl⟩ := Prod.mk.inj (Except.ok.inj hr)
  exact ⟨rfl, rfl⟩

theorem Refuted.solve {fuel : Nat} {raws : List Int} {v : Verdict} (h : s.Refuted F)
    (hr : s.solve fuel raws = .ok (v, s')) :
    s'.Refuted F ∧ s.Persists s' ∧ v = .unsatisfiable ∧ s'.numVars = s.numVars := by
  unfold Solver.solve at hr
  rw [if_pos h.refuted] at hr
  obtain ⟨rfl, rfl⟩ := Prod.mk.inj (Except.ok.inj hr)
  exact ⟨h.of_eq rfl rfl, Persists.of_eq (fun hj => Array.mem_push_of_mem _ hj) rfl, rfl, rfl⟩

theorem Refuted.perform_eq_ok (h : s.Refuted F) (hr : s.perform c = .ok (r, s')) :
    s'.Refuted (F ++ Exchange.demands (c, r)) ∧ s.Persists s' := by
  cases performs_of_eq_ok hr with
  | newVars hr =>
    obtain ⟨h', hpersists⟩ := h.newVars hr
    exact ⟨h'.append, hpersists⟩
  | addClause hr =>
    obtain ⟨ls, -, hr⟩ := bind_eq_ok_iff.1 hr
    obtain ⟨rfl, rfl⟩ := h.addLiterals hr
    exact ⟨h.append, Persists.of_eq id rfl⟩
  | addAtLeast hr =>
    obtain ⟨ls, -, hr⟩ := bind_eq_ok_iff.1 hr
    rw [if_pos h.refuted] at hr
    obtain ⟨rfl, rfl⟩ := Prod.mk.inj (Except.ok.inj hr)
    exact ⟨h.append, Persists.of_eq id rfl⟩
  | solve hr =>
    obtain ⟨h', hpersists, -⟩ := h.solve hr
    exact ⟨h'.append, hpersists⟩
  | limitTime limit => exact ⟨h.append.of_eq rfl rfl, Persists.of_eq id rfl⟩
  | limitConflicts limit => exact ⟨h.append.of_eq rfl rfl, Persists.of_eq id rfl⟩
  | enableCertificate hr =>
    obtain ⟨_, hfresh, -⟩ := bind_eq_ok_iff.1 hr
    have hfresh := require_eq_ok_iff.1 hfresh
    simp [h.refuted] at hfresh

/-! ## Idle solvers -/

/-- What a call leaves behind. -/
def Leaves (s : Solver) (F : Formula) (r : Reply) : Prop :=
  (s.Idle F ∧ ¬ r.Contradicts) ∨
    (s.Refuted F ∧ (r.Contradicts ∨ Notice.rootConflict ∈ s.journal))

theorem Takes.leaves {a : Added} (h : s.Takes s' F d a) (hs : s.Idle F)
    (hd : a ≠ .error .certificateUnsupported → Exchange.demands (c, .added a) = [d])
    (hnone : Exchange.demands (c, .added (.error .certificateUnsupported)) = []) :
    s'.Leaves (F ++ Exchange.demands (c, .added a)) (.added a) := by
  cases a with
  | ok what =>
    rw [hd (by simp)]
    exact Or.inl ⟨h, id⟩
  | error e =>
    cases e with
    | contradiction cause =>
      rw [hd (by simp)]
      exact Or.inr ⟨h, Or.inl trivial⟩
    | certificateUnsupported =>
      have hsame : s' = s := h
      rw [hnone, List.append_nil, hsame]
      exact Or.inl ⟨hs, id⟩
    | timeout => exact h.elim

theorem Ends.leaves {A : List Literal} {v : Verdict} (h : s.Ends F A v) (hlev : s.trail.level = 0) :
    s.Leaves F (.answered v) := by
  cases v with
  | satisfiable => exact Or.inl ⟨⟨h.1, hlev⟩, id⟩
  | unsatisfiable =>
    rcases h with ⟨hs, -⟩ | ⟨hrefuted, hj⟩
    · exact Or.inl ⟨⟨hs, hlev⟩, id⟩
    · exact Or.inr ⟨hrefuted, Or.inr hj⟩
  | timeout => exact Or.inl ⟨⟨h, hlev⟩, id⟩
  | unfinished => exact Or.inl ⟨⟨h, hlev⟩, id⟩

/-- What holds between two calls does not depend on the limits. -/
theorem Idle.limited (h : s.Idle F) (timeLimit conflictLimit : Option Nat) :
    Idle { s with timeLimit, conflictLimit } F where
  ready := h.ready
  keeps := h.keeps.of_eq rfl rfl rfl rfl rfl rfl rfl h.keeps.calm
  lists := h.lists
  level := h.level

theorem Idle.perform_eq_ok (h : s.Idle F) (hvars : s.numVars < Event.varLimit) (hc : c.Admissible)
    (hr : s.perform c = .ok (r, s')) : s'.Leaves (F ++ Exchange.demands (c, r)) r := by
  cases performs_of_eq_ok hr with
  | @newVars count _ hr =>
    rw [show Exchange.demands (.newVars count, .done) = [] from rfl, List.append_nil]
    exact Or.inl ⟨(h.newVars hr).1, id⟩
  | addClause hr =>
    refine (h.addClause (.of_lt hvars) hr).2.leaves h (fun hne => ?_) rfl
    unfold Exchange.demands
    split <;> simp_all
  | addAtLeast hr =>
    refine (h.addAtLeast (.of_lt hvars) hc.1 hc.2 hr).2.leaves h (fun hne => ?_) rfl
    unfold Exchange.demands
    split <;> simp_all
  | @solve fuel raws v _ hr =>
    obtain ⟨-, hlev, hends⟩ := h.solve (Nat.lt_trans hvars (by decide)) hr
    rw [show Exchange.demands (.solve fuel raws, .answered v) = [] from rfl, List.append_nil]
    exact hends.leaves hlev
  | limitTime limit =>
    rw [show Exchange.demands (.limitTime limit, .done) = [] from rfl, List.append_nil]
    exact Or.inl ⟨h.limited limit s.conflictLimit, id⟩
  | limitConflicts limit =>
    rw [show Exchange.demands (.limitConflicts limit, .done) = [] from rfl, List.append_nil]
    exact Or.inl ⟨h.limited s.timeLimit limit, id⟩
  | enableCertificate hr =>
    rw [show Exchange.demands (.enableCertificate, .done) = [] from rfl, List.append_nil]
    exact Or.inl ⟨(h.enableCertificate hr).1, id⟩

/-! ## Additions of new constraints -/

/-- A constraint of the formula is stored unless it is known. -/
theorem storeGiven_of_new {given : List Literal} {c : Constraint} {id : Option ClauseId}
    {s₁ s₂ : Solver} {ref : ClauseRef} (hnew : s.known[c.key]? = none)
    (hs₁ : s.certifyClause (fun p => p.newClause given s.trail) = .ok (id, s₁))
    (hs₂ : s₁.insertConstraint ⟨c, 0.0, false, id⟩ = .ok (ref, s₂)) :
    s.storeGiven c given = .ok (.stored ref,
      { s₂ with known := s₂.known.insert c.key ref, formulaSize := s₂.formulaSize + 1 }) := by
  unfold Solver.storeGiven
  rw [hnew]
  exact bind_eq_ok_iff.2 ⟨_, hs₁, bind_eq_ok_iff.2 ⟨_, hs₂, rfl⟩⟩

/-- What remains of a clause is stored unless it is known. -/
theorem perform_addClause_of_new {raws : List Int} {ls rest : List Literal} {c : Constraint}
    {id : Option ClauseId} {s₁ s₂ : Solver} {ref : ClauseRef} (hopen : s.refuted = false)
    (hls : s.literals raws = .ok ls) (hform : Intake.clause ls s.trail = .ok (.ok (.clause rest)))
    (hc : Constraint.clause rest = .ok c) (hnew : s.known[c.key]? = none)
    (hs₁ : s.certifyClause (fun p => p.newClause ls s.trail) = .ok (id, s₁))
    (hs₂ : s₁.insertConstraint ⟨c, 0.0, false, id⟩ = .ok (ref, s₂)) :
    s.perform (.addClause raws) = .ok (.added (.ok (.stored ref)),
      { s₂ with known := s₂.known.insert c.key ref, formulaSize := s₂.formulaSize + 1 }) := by
  have hstore := storeGiven_of_new hnew hs₁ hs₂
  have hadd : s.addLiterals ls = .ok (.ok (.stored ref),
      { s₂ with known := s₂.known.insert c.key ref, formulaSize := s₂.formulaSize + 1 }) := by
    unfold Solver.addLiterals
    rw [if_neg (by simp [hopen])]
    exact bind_eq_ok_iff.2 ⟨_, hform, bind_eq_ok_iff.2 ⟨c, hc, bind_eq_ok_iff.2 ⟨_, hstore, rfl⟩⟩⟩
  exact bind_eq_ok_iff.2 ⟨_, bind_eq_ok_iff.2 ⟨ls, hls, hadd⟩, rfl⟩

/-- Without a certificate it is stored in a new slot if nothing was stored before. -/
theorem perform_addClause_of_empty {raws : List Int} {ls rest : List Literal} {c : Constraint}
    {k : Kernel} (hknown : s.known = ∅) (hcert : s.certificate = none) (hopen : s.refuted = false)
    (hls : s.literals raws = .ok ls) (hform : Intake.clause ls s.trail = .ok (.ok (.clause rest)))
    (hc : Constraint.clause rest = .ok c)
    (hk : { s.kernel with store := (s.store.insert ⟨c, 0.0, false, none⟩).2 }.attach
      ⟨s.store.slots.size⟩ c = .ok k) :
    s.perform (.addClause raws) = .ok (.added (.ok (.stored ⟨s.store.slots.size⟩)),
      { s with
        kernel := k
        known := s.known.insert c.key ⟨s.store.slots.size⟩
        formulaSize := s.formulaSize + 1 }) :=
  perform_addClause_of_new hopen hls hform hc
    (by rw [hknown, Std.HashMap.getElem?_empty]) (certifyClause_of_none hcert _)
    (bind_eq_ok_iff.2 ⟨k, hk, rfl⟩)

/-- Without a certificate a unit clause that meets no conflict is asserted with its consequences. -/
theorem addClause_of_unit {raws : List Int} {ls : List Literal} {l : Literal} {t : Trail} {k : Kernel}
    (hcert : s.certificate = none) (hopen : s.refuted = false) (hls : s.literals raws = .ok ls)
    (hform : Intake.clause ls s.trail = .ok (.ok (.unit l)))
    (ht : s.trail.assign l none = .ok (some t))
    (hk : Kernel.propagate { s.kernel with trail := t } = .ok (none, k)) :
    ∃ journal, s.addClause raws = .ok (.ok (.unit l), { s with kernel := k, journal }) := by
  have hprop : (s.setTrail t).propagateRoot = .ok (.ok (), (s.setTrail t).setKernel k) :=
    bind_eq_ok_iff.2 ⟨_, bind_eq_ok_iff.2 ⟨_, hk, rfl⟩, bind_eq_ok_iff.2 ⟨_,
      certify_of_none (s := (s.setTrail t).setKernel k) hcert _, rfl⟩⟩
  have hunit : s.assertUnit l none = .ok (.ok (), (s.setTrail t).setKernel k) :=
    bind_eq_ok_iff.2 ⟨_, bind_eq_ok_iff.2 ⟨_, ht, rfl⟩, bind_eq_ok_iff.2 ⟨_,
      certify_of_none (s := s.setTrail t) hcert _, hprop⟩⟩
  have hadd : s.addLiterals ls = .ok (.ok (.unit l), (s.setTrail t).setKernel k) := by
    unfold Solver.addLiterals
    rw [if_neg (by simp [hopen])]
    exact bind_eq_ok_iff.2 ⟨_, hform, bind_eq_ok_iff.2 ⟨_, certifyClause_of_none hcert _,
      bind_eq_ok_iff.2 ⟨_, hunit, rfl⟩⟩⟩
  exact ⟨_, bind_eq_ok_iff.2 ⟨ls, hls, hadd⟩⟩

/-- Without a certificate a contradictory clause only settles that the formula is refuted. -/
theorem addClause_of_contradiction {raws : List Int} {ls : List Literal} {cause : Contradiction}
    (hcert : s.certificate = none) (hopen : s.refuted = false) (hls : s.literals raws = .ok ls)
    (hform : Intake.clause ls s.trail = .ok (.error cause)) :
    s.addClause raws = .ok (.error (.contradiction cause),
      { s with refuted := true }.note (.contradictoryClause ls)) := by
  refine bind_eq_ok_iff.2 ⟨ls, hls, ?_⟩
  unfold Solver.addLiterals
  rw [if_neg (by simp [hopen])]
  exact bind_eq_ok_iff.2 ⟨_, hform, bind_eq_ok_iff.2 ⟨_, certifyClause_of_none hcert _, rfl⟩⟩

/-! ## Whole sessions -/

theorem create_eq_ok {config : Config} (h : create config = .ok s) : s.Idle [] ∧ s.numVars = 0 := by
  obtain ⟨o, ho, h⟩ := bind_eq_ok_iff.1 h
  obtain ⟨restarts, -, h⟩ := bind_eq_ok_iff.1 h
  obtain rfl := Except.ok.inj h
  refine ⟨⟨⟨Kernel.Ready.empty, ?_, lists_nil _⟩, rfl⟩, rfl⟩
  refine ⟨Kernel.Represents.empty, by simp, rfl, Analyzer.clear_empty, Order.offers_ofPolicy ho,
    fun c hc => ?_, by simp, rfl⟩
  dsimp only at hc
  split at hc
  · obtain rfl := Option.some.inj hc
    exact ⟨rfl, Certificate.certifies_empty fun _ => Store.get?_of_size_eq_zero rfl⟩
  · exact absurd hc (by simp)

/-- A call keeps what a session promises. -/
theorem Stands.perform_eq_ok (h : s.Stands es) (hvars : s.numVars < Event.varLimit)
    (hc : c.Admissible) (hr : s.perform c = .ok (r, s')) : s'.Stands (es ++ [(c, r)]) := by
  unfold Stands
  rw [formula_concat, contradicted_concat]
  rcases h with ⟨hidle, hcalm⟩ | ⟨hrefuted, hwhy⟩
  · rcases hidle.perform_eq_ok hvars hc hr with ⟨h', hr'⟩ | ⟨h', hr' | hj⟩
    · exact Or.inl ⟨h', not_or.2 ⟨hcalm, hr'⟩⟩
    · exact Or.inr ⟨h', Or.inl (Or.inr hr')⟩
    · exact Or.inr ⟨h', Or.inr hj⟩
  · obtain ⟨h', hpersists⟩ := hrefuted.perform_eq_ok hr
    exact Or.inr ⟨h', hwhy.imp Or.inl hpersists.journal⟩

end Solver

theorem Steps.stands (h : Steps s fs s') (hs : s.Stands es) (hvars : s.numVars < Event.varLimit) :
    s'.Stands (es ++ fs) ∧ s'.numVars < Event.varLimit := by
  induction h with
  | nil => exact ⟨by rwa [List.append_nil], hvars⟩
  | snoc h₁ hc hr hvars' ih =>
    obtain ⟨hs₁, hvars₁⟩ := ih
    rw [← List.append_assoc]
    exact ⟨hs₁.perform_eq_ok hvars₁ hc hr, hvars'⟩

theorem Steps.refuted (h : Steps s fs s') (hs : s.Refuted F) :
    s'.Refuted (F ++ formula fs) ∧ s.Persists s' := by
  induction h with
  | nil => exact ⟨hs.append, Solver.Persists.of_eq id rfl⟩
  | snoc h₁ hc hr hvars ih =>
    obtain ⟨hs₁, hpersists₁⟩ := ih
    obtain ⟨hs₂, hpersists₂⟩ := hs₁.perform_eq_ok hr
    rw [formula_concat, ← List.append_assoc]
    exact ⟨hs₂, hpersists₁.trans hpersists₂⟩

theorem Session.stands (h : Session s es) : s.Stands es ∧ s.numVars < Event.varLimit := by
  obtain ⟨config, s₀, hcreate, hsteps⟩ := h
  obtain ⟨hidle, hvars⟩ := Solver.create_eq_ok hcreate
  have hstart : s₀.Stands [] := Or.inl ⟨hidle, by simp [Contradicted]⟩
  exact hsteps.stands hstart (hvars ▸ by decide)

theorem Session.append (h : Session s es) (h' : Steps s fs s') : Session s' (es ++ fs) := by
  obtain ⟨config, s₀, hcreate, hsteps⟩ := h
  exact ⟨config, s₀, hcreate, hsteps.append h'⟩

theorem Session.create {config : Config} (h : Solver.create config = .ok s) : Session s [] :=
  ⟨config, s, h, Steps.nil s⟩

theorem Session.call (h : Session s es) (hc : c.Admissible) (hr : s.perform c = .ok (r, s'))
    (hvars : s'.numVars < Event.varLimit) : Session s' (es ++ [(c, r)]) :=
  h.append ((Steps.nil s).snoc hc hr hvars)

theorem Session.solve {fuel : Nat} {raws : List Int} {v : Verdict} (h : Session s es)
    (hr : s.solve fuel raws = .ok (v, s')) :
    Session s' (es ++ [(.solve fuel raws, .answered v)]) := by
  obtain ⟨hstands, hvars⟩ := h.stands
  have hnum : s'.numVars = s.numVars := by
    rcases hstands with ⟨hidle, -⟩ | ⟨hrefuted, -⟩
    · exact (hidle.solve (Nat.lt_trans hvars (by decide)) hr).1
    · exact (hrefuted.solve hr).2.2.2
  exact h.call trivial (bind_eq_ok_iff.2 ⟨(v, s'), hr, rfl⟩) (hnum ▸ hvars)

end Cdcl
