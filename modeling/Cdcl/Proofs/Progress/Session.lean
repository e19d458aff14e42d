import Mathlib.Algebra.Ring.Nat
import Cdcl.Proofs.Progress.Addition
import Cdcl.Proofs.Solver.Session

/-!
# No call gets stuck

`performAll` makes calls one after the other. If the calls are `Proper`, which says that they name known
variables and that there are fewer than 2³⁰ of these, and if no restart interval leaves the range of
words, then every call has a result (`calls_succeed`), with or without a certificate, whatever was
answered before, and wherever a search is cut off.
-/

namespace Cdcl
set_option autoImplicit false

namespace Call

/-- What may be asked of a solver with so many variables. The literals of an at-least constraint may
repeat, as long as they fit into memory. -/
def Proper (vars : Nat) : Call → Prop
  | newVars count => vars + count < Event.varLimit
  | addClause raws => InRange vars raws
  | addAtLeast raws degree =>
    InRange vars raws ∧ degree < Word.addressable ∧ raws.length < Word.addressable
  | solve _ assumptions => InRange vars assumptions
  | _ => False

instance (vars : Nat) : (c : Call) → Decidable (c.Proper vars)
  | newVars count => inferInstanceAs (Decidable (vars + count < Event.varLimit))
  | addClause raws => inferInstanceAs (Decidable (InRange vars raws))
  | addAtLeast raws degree => inferInstanceAs (Decidable
      (InRange vars raws ∧ degree < Word.addressable ∧ raws.length < Word.addressable))
  | solve _ assumptions => inferInstanceAs (Decidable (InRange vars assumptions))
  | limitTime _ | limitConflicts _ | enableCertificate => isFalse id

/-- The number of variables after a call. -/
def varsAfter (vars : Nat) : Call → Nat
  | newVars count => vars + count
  | _ => vars

/-- How many restart intervals a call can take. -/
def intervals : Call → Nat
  | solve fuel _ => fuel + 1
  | _ => 0

/-- Calls that may be made one after the other. -/
def AllProper (vars : Nat) : List Call → Prop
  | [] => True
  | c :: cs => c.Proper vars ∧ AllProper (c.varsAfter vars) cs

instance decidableAllProper (vars : Nat) : (cs : List Call) → Decidable (AllProper vars cs)
  | [] => isTrue trivial
  | c :: cs =>
    have := decidableAllProper (c.varsAfter vars) cs
    inferInstanceAs (Decidable (c.Proper vars ∧ AllProper (c.varsAfter vars) cs))

theorem Proper.varsAfter_lt {c : Call} {vars : Nat} (h : c.Proper vars)
    (hvars : vars < Event.varLimit) : c.varsAfter vars < Event.varLimit := by
  cases c with
  | newVars count => exact h
  | _ => exact hvars

end Call

namespace Solver

/-- Makes calls one after the other. -/
def performAll (s : Solver) : List Call → Except Fault (List Reply × Solver)
  | [] => .ok ([], s)
  | c :: cs => do
    let (r, s) ← s.perform c
    let (rs, s) ← s.performAll cs
    .ok (r :: rs, s)

variable {s s' : Solver} {F : Formula} {n : Nat} {c : Call} {cs : List Call} {r : Reply}

/-- A solver between two calls. -/
def Rests (s : Solver) : Prop := (∃ F, s.Idle F) ∨ ∃ F, s.Refuted F

theorem Rests.idle (h : s.Rests) : ∃ F, s.refuted = false → s.Idle F := by
  rcases h with ⟨F, h⟩ | ⟨F, h⟩
  · exact ⟨F, fun _ => h⟩
  · exact ⟨F, fun hno => absurd (hno.symm.trans h.refuted) (by simp)⟩

theorem Takes.rests {d : Demand} {a : Added} (h : s.Takes s' F d a) (hs : s.Idle F) : s'.Rests := by
  match a, h with
  | .ok what, h => exact Or.inl ⟨_, h⟩
  | .error (.contradiction cause), h => exact Or.inr ⟨_, h⟩
  | .error .certificateUnsupported, h =>
    have hsame : s' = s := h
    exact Or.inl ⟨F, hsame ▸ hs⟩

/-- A call leaves a solver at rest. -/
theorem Rests.perform_eq_ok (h : s.Rests) (hvars : s.numVars < Event.varLimit)
    (hc : c.Proper s.numVars) (hr : s.perform c = .ok (r, s')) :
    s'.Rests ∧ s'.numVars = c.varsAfter s.numVars := by
  cases performs_of_eq_ok hr with
  | newVars hr =>
    exact ⟨h.imp (fun ⟨F, h⟩ => ⟨F, (h.newVars hr).1⟩) fun ⟨F, h⟩ => ⟨F, (h.newVars hr).1⟩,
      numVars_newVars hr⟩
  | addClause hr =>
    rcases h with ⟨F, h⟩ | ⟨F, h⟩
    · obtain ⟨hnum, htakes⟩ := h.addClause (.of_lt hvars) hr
      exact ⟨htakes.rests h, hnum⟩
    · obtain ⟨ls, -, hr⟩ := bind_eq_ok_iff.1 hr
      obtain ⟨rfl, -⟩ := h.addLiterals hr
      exact ⟨Or.inr ⟨F, h⟩, rfl⟩
  | addAtLeast hr =>
    rcases h with ⟨F, h⟩ | ⟨F, h⟩
    · obtain ⟨hnum, htakes⟩ := h.addAtLeast_counted (.of_lt hvars) hc.2.1 hr
      exact ⟨htakes.rests h, hnum⟩
    · obtain ⟨ls, -, hr⟩ := bind_eq_ok_iff.1 hr
      rw [if_pos h.refuted] at hr
      obtain ⟨-, rfl⟩ := Prod.mk.inj (Except.ok.inj hr)
      exact ⟨Or.inr ⟨F, h⟩, rfl⟩
  | solve hr =>
    rcases h with ⟨F, h⟩ | ⟨F, h⟩
    · obtain ⟨hnum, hlev, hends⟩ := h.solve (Nat.lt_trans hvars (by decide)) hr
      refine ⟨(hends.leaves hlev).imp (fun h => ⟨F, h.1⟩) fun h => ⟨F, h.1⟩, hnum⟩
    · obtain ⟨h', -, -, hnum⟩ := h.solve hr
      exact ⟨Or.inr ⟨F, h'⟩, hnum⟩
  | limitTime _ => exact hc.elim
  | limitConflicts _ => exact hc.elim
  | enableCertificate _ => exact hc.elim

/-- A proper call of a solver at rest has a result. -/
theorem Supplied.perform (h : s.Supplied (c.intervals + n)) (hs : s.Rests)
    (hvars : s.numVars < Event.varLimit) (hc : c.Proper s.numVars) :
    ∃ r s', s.perform c = .ok (r, s') ∧ s'.Supplied n := by
  obtain ⟨F, hidle⟩ := hs.idle
  have hmono := h.mono (Nat.le_add_left n _)
  cases c with
  | newVars count =>
    obtain ⟨s', hs', h'⟩ := hmono.newVars hc
    exact ⟨_, s', bind_eq_ok_iff.2 ⟨s', hs', rfl⟩, h'⟩
  | addClause raws =>
    obtain ⟨r, s', hs', h'⟩ := hmono.addClause hidle (.of_lt hvars) hc
    exact ⟨_, s', bind_eq_ok_iff.2 ⟨_, hs', rfl⟩, h'⟩
  | addAtLeast raws degree =>
    obtain ⟨r, s', hs', h'⟩ := hmono.addAtLeast hidle (.of_lt hvars) hc.1 hc.2.1 hc.2.2
    exact ⟨_, s', bind_eq_ok_iff.2 ⟨_, hs', rfl⟩, h'⟩
  | solve fuel raws =>
    obtain ⟨v, s', hs', h'⟩ := Supplied.solve h hidle (Nat.lt_trans hvars (by decide)) hc
    exact ⟨_, s', bind_eq_ok_iff.2 ⟨_, hs', rfl⟩, h'⟩
  | limitTime limit => exact hc.elim
  | limitConflicts limit => exact hc.elim
  | enableCertificate => exact hc.elim

/-- Proper calls of a supplied solver have results. -/
theorem Supplied.performAll (h : s.Supplied ((cs.map Call.intervals).sum + n)) (hs : s.Rests)
    (hvars : s.numVars < Event.varLimit) (hcs : Call.AllProper s.numVars cs) :
    ∃ rs s', s.performAll cs = .ok (rs, s') ∧ s'.Supplied n ∧ s'.Rests ∧
      s'.numVars < Event.varLimit := by
  induction cs generalizing s with
  | nil => exact ⟨[], s, rfl, by simpa using h, hs, hvars⟩
  | cons c cs ih =>
    rw [List.map_cons, List.sum_cons, Nat.add_assoc] at h
    obtain ⟨r, s₁, hs₁, h₁⟩ := h.perform hs hvars hcs.1
    obtain ⟨hrests, hnum⟩ := hs.perform_eq_ok hvars hcs.1 hs₁
    obtain ⟨rs, s', hs', hrest⟩ := ih h₁ hrests (hnum ▸ hcs.1.varsAfter_lt hvars) (hnum ▸ hcs.2)
    exact ⟨r :: rs, s', bind_eq_ok_iff.2 ⟨_, hs₁, bind_eq_ok_iff.2 ⟨_, hs', rfl⟩⟩, hrest⟩

/-- A new solver is supplied with as many intervals as its sequence has. -/
theorem create_supplied {config : Config} (h : create config = .ok s) (hfits : s.restarts.Fits n) :
    s.Supplied n := by
  obtain ⟨o, ho, h⟩ := bind_eq_ok_iff.1 h
  obtain ⟨restarts, -, h⟩ := bind_eq_ok_iff.1 h
  obtain rfl := Except.ok.inj h
  have hvalid : Trail.Valid {} := Kernel.Ready.empty.sound.trail
  refine ⟨⟨hvalid, fun l hl => ?_, fun v hv => ?_, Order.room_ofPolicy ho,
    Trail.decided_of_level_zero hvalid rfl, rfl, rfl, hfits⟩, fun _ c hc => ?_⟩
  · exact absurd (Nat.le_trans hl.1 hl.2) (Nat.not_succ_le_zero 0)
  · exact absurd (Nat.le_trans hv.1 hv.2) (Nat.not_succ_le_zero 0)
  · dsimp only at hc
    split at hc
    · exact Option.some.inj hc ▸ Certificate.complete_empty
    · exact absurd hc (by simp)

/-- Proper calls of a new solver have results, however far each search is taken, as long as the restart
intervals fit a word. So no constraint or reason is missing, nothing false is asserted, no unit clause
is missing from the certificate, and no table is too small: each has a cell for every variable. -/
theorem calls_succeed {config : Config} (hcreate : create config = .ok s)
    (hfits : s.restarts.Fits (cs.map Call.intervals).sum) (hcs : Call.AllProper 0 cs) :
    ∃ rs s', s.performAll cs = .ok (rs, s') ∧ s'.Ample 0 := by
  obtain ⟨hidle, hvars⟩ := create_eq_ok hcreate
  obtain ⟨rs, s', hs', h', -⟩ := Supplied.performAll (n := 0) (create_supplied hcreate hfits)
    (Or.inl ⟨[], hidle⟩) (hvars.symm ▸ (by decide : 0 < Event.varLimit)) (hvars.symm ▸ hcs)
  exact ⟨rs, s', hs', h'.toAmple⟩

theorem calls_succeed_opposite_units : ∃ s rs s',
    create { order := .uniform 0, certificate := true } = .ok s ∧
    s.performAll [.newVars 2, .addAtLeast [1, 2, 2] 1, .solve 7 [-1], .addClause [-2],
      .addClause [-1], .solve 7 []] = .ok (rs, s') ∧ s'.Ample 0 := by
  have hcreate : create { order := .uniform 0, certificate := true } = .ok _ := rfl
  have hcs : Call.AllProper 0 [.newVars 2, .addAtLeast [1, 2, 2] 1, .solve 7 [-1], .addClause [-2],
      .addClause [-1], .solve 7 []] := by decide
  obtain ⟨rs, s', hs', h'⟩ := calls_succeed hcreate (Restart.fits_ofPolicy (p := .luby 100) rfl
    fun base hbase => by cases hbase; decide) hcs
  exact ⟨_, rs, s', hcreate, hs', h'⟩

end Solver
end Cdcl
