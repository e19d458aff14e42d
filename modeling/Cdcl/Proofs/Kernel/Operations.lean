import Cdcl.Proofs.Kernel.Changes
import Cdcl.Proofs.Progress.Kernel
import Cdcl.Proofs.Trail.Rewinding

/-!
# Operations in any order

`Kernel.Operation` lists what can be done to the assignment and the watch lists one step at a time,
and `Kernel.Runs` is any sequence of such steps on known literals. After every run from the empty
kernel the trail is coherent and each further operation has a result; and taking back the levels that
a run has opened gives the assignment right before, whatever happened in them
(`Runs.exact_history`). The watch lists are what the operations on them made of them.
-/

namespace Cdcl
set_option autoImplicit false

namespace Kernel

/-- A step on the assignment or on the watch lists. -/
inductive Operation where
  | newVars (count : Nat)
  | assign (l : Literal) (reason : Option ClauseRef)
  | decide (l : Literal)
  | openLevel
  | undoTo (level : Nat)
  | next
  | flush
  | watch (l : Literal) (ref : ClauseRef)
  | unwatch (l : Literal) (ref : ClauseRef)
  | take (l : Literal)

namespace Operation

/-- Assigning a false literal changes nothing. -/
def run (k : Kernel) : Operation → Except Fault Kernel
  | newVars count => do
    let (_, k) ← k.newVars count
    .ok k
  | assign l reason => do
    match ← k.trail.assign l reason with
    | some trail => .ok { k with trail }
    | none => .ok k
  | decide l => do
    let trail ← k.trail.decide l
    .ok { k with trail }
  | openLevel => .ok { k with trail := k.trail.openLevel }
  | undoTo level => .ok { k with trail := (k.trail.undoTo level).1 }
  | next =>
    match k.trail.next with
    | some (_, trail) => .ok { k with trail }
    | none => .ok k
  | flush => .ok { k with trail := k.trail.flush }
  | watch l ref => do
    let watches ← k.watches.add l ref
    .ok { k with watches }
  | unwatch l ref => do
    let watches ← k.watches.remove l ref
    .ok { k with watches }
  | take l => do
    let (_, watches) ← k.watches.take l
    .ok { k with watches }

/-- There are not too many variables, literals are known, and what is decided is unassigned. -/
def Fits (k : Kernel) : Operation → Prop
  | newVars count => k.trail.vars + count < Event.varLimit
  | assign l _ => k.trail.Names l
  | decide l => k.trail.Names l ∧ k.trail.mark? l.var = none
  | watch l _ | unwatch l _ | take l => k.trail.Names l
  | openLevel | undoTo _ | next | flush => True

instance (k : Kernel) : (op : Operation) → Decidable (op.Fits k)
  | newVars _ => inferInstanceAs (Decidable (_ < _))
  | assign .. | watch .. | unwatch .. | take _ => inferInstanceAs (Decidable (_ ≤ _ ∧ _ ≤ _))
  | decide _ => inferInstanceAs (Decidable ((_ ≤ _ ∧ _ ≤ _) ∧ _ = _))
  | openLevel | undoTo _ | next | flush => inferInstanceAs (Decidable True)

/-- Whether the operation opens a level. -/
def Opens : Operation → Prop
  | decide _ | openLevel => True
  | _ => False

/-- What the operation makes of the list of a literal. -/
def onList (l : Literal) (list : Array ClauseRef) : Operation → Array ClauseRef
  | watch k ref => if l = k then list.push ref else list
  | unwatch k ref => if l = k then Watches.without ref list else list
  | take k => if l = k then #[] else list
  | _ => list

/-- What the operation makes of the trail. -/
def OnTrail (t t' : Trail) : Operation → Prop
  | newVars count => t.growTo (t.vars + count) = .ok t'
  | assign l reason => t' = t ∨ (t' = t.push l reason ∧ t.mark? l.var = none)
  | decide l => t' = t.openLevel.push l none ∧ t.mark? l.var = none
  | openLevel => t' = t.openLevel
  | undoTo level => t' = (t.undoTo level).1
  | next | flush => ∃ n, t.head ≤ n ∧ n ≤ t.literals.size ∧ t' = { t with head := n }
  | watch .. | unwatch .. | take _ => t' = t

end Operation

/-- The operations lead from one kernel to another, and each of them fits when its turn comes. -/
inductive Runs : Kernel → List Operation → Kernel → Prop where
  | nil (k : Kernel) : Runs k [] k
  | cons {k k' k'' : Kernel} {op : Operation} {ops : List Operation} (fits : op.Fits k)
      (step : op.run k = .ok k') (rest : Runs k' ops k'') : Runs k (op :: ops) k''

/-- The trail is valid, and there are lists for the literals of all variables, of which there are not
too many. -/
structure Prepared (k : Kernel) : Prop where
  trail : k.trail.Valid
  room : k.watches.Room k.trail.vars
  few : k.trail.vars < Event.varLimit

variable {k k' k₀ : Kernel} {op : Operation} {ops : List Operation} {l : Literal}

theorem Prepared.empty : Prepared {} where
  trail := Ready.empty.sound.trail
  room := fun l hl => absurd hl.2 (Nat.not_le_of_lt hl.1)
  few := by decide

/-! ## One operation -/

namespace Operation

theorem run_eq_ok (ht : k.trail.Valid) (h : op.run k = .ok k') :
    op.OnTrail k.trail k'.trail ∧
      ∀ l, k'.watches.entries l = op.onList l (k.watches.entries l) := by
  cases op with
  | newVars count =>
    obtain ⟨⟨first, k₁⟩, hk₁, h⟩ := bind_eq_ok_iff.1 h
    obtain rfl : k₁ = k' := Except.ok.inj h
    obtain ⟨-, t, w, ht, hw, rfl⟩ := newVars_eq_ok hk₁
    exact ⟨ht, fun l => Watches.entries_growTo hw⟩
  | assign l reason =>
    obtain ⟨o, ho, h⟩ := bind_eq_ok_iff.1 h
    obtain ⟨rfl, -⟩ | ⟨rfl, -⟩ | ⟨rfl, hnone, -⟩ := Trail.assign_eq_ok ho
    all_goals obtain rfl := Except.ok.inj h
    · exact ⟨Or.inl rfl, fun _ => rfl⟩
    · exact ⟨Or.inl rfl, fun _ => rfl⟩
    · exact ⟨Or.inr ⟨rfl, hnone⟩, fun _ => rfl⟩
  | decide l =>
    obtain ⟨t, ht, h⟩ := bind_eq_ok_iff.1 h
    obtain rfl := Except.ok.inj h
    obtain ⟨hnone, -, rfl⟩ := Trail.decide_eq_ok ht
    exact ⟨⟨rfl, hnone⟩, fun _ => rfl⟩
  | openLevel | undoTo level =>
    obtain rfl := Except.ok.inj h
    exact ⟨rfl, fun _ => rfl⟩
  | next =>
    cases hnext : k.trail.next with
    | none =>
      simp only [run, hnext, Except.ok.injEq] at h
      subst h
      exact ⟨⟨_, Nat.le_refl _, ht.head_le, rfl⟩, fun _ => rfl⟩
    | some found =>
      obtain ⟨l, t⟩ := found
      obtain ⟨hl, rfl⟩ := Trail.next_eq_some hnext
      simp only [run, hnext, Except.ok.injEq] at h
      subst h
      exact ⟨⟨_, Nat.le_succ _, (Array.getElem?_eq_some_iff.1 hl).1, rfl⟩, fun _ => rfl⟩
  | flush =>
    obtain rfl := Except.ok.inj h
    exact ⟨⟨_, ht.head_le, Nat.le_refl _, rfl⟩, fun _ => rfl⟩
  | watch l ref =>
    obtain ⟨w, hw, h⟩ := bind_eq_ok_iff.1 h
    obtain rfl := Except.ok.inj h
    exact ⟨rfl, fun _ => Watches.entries_add hw⟩
  | unwatch l ref =>
    obtain ⟨w, hw, h⟩ := bind_eq_ok_iff.1 h
    obtain rfl := Except.ok.inj h
    exact ⟨rfl, fun _ => Watches.entries_remove hw⟩
  | take l =>
    obtain ⟨⟨list, w⟩, hw, h⟩ := bind_eq_ok_iff.1 h
    obtain rfl := Except.ok.inj h
    exact ⟨rfl, fun _ => Watches.entries_take hw⟩

theorem run_has_room (h : k.Prepared) (hfits : op.Fits k) : ∃ k', op.run k = .ok k' ∧
    k'.watches.Room k'.trail.vars ∧ k'.trail.vars < Event.varLimit := by
  cases op with
  | newVars count =>
    obtain ⟨o, k', hk', hroom⟩ := newVars_succeeds hfits
    refine ⟨k', bind_eq_ok_iff.2 ⟨_, hk', rfl⟩, hroom, ?_⟩
    obtain ⟨-, t, w, ht, -, rfl⟩ := newVars_eq_ok hk'
    exact (Trail.growTo_eq_ok ht).2.1.symm ▸ hfits
  | assign l reason =>
    obtain ⟨o, ho⟩ := h.trail.assign hfits (r := reason)
    obtain ⟨rfl, -⟩ | ⟨rfl, -⟩ | ⟨rfl, -⟩ := Trail.assign_eq_ok ho
    all_goals exact ⟨_, bind_eq_ok_iff.2 ⟨_, ho, rfl⟩, h.room, h.few⟩
  | decide l => exact ⟨_, bind_eq_ok_iff.2 ⟨_, h.trail.decide hfits.1 hfits.2, rfl⟩, h.room, h.few⟩
  | openLevel | flush => exact ⟨_, rfl, h.room, h.few⟩
  | undoTo level => exact ⟨_, rfl, Trail.vars_undoTo.symm ▸ ⟨h.room, h.few⟩⟩
  | next =>
    cases hnext : k.trail.next with
    | none => exact ⟨k, by simp only [run, hnext], h.room, h.few⟩
    | some found =>
      obtain ⟨l, t⟩ := found
      obtain ⟨-, rfl⟩ := Trail.next_eq_some hnext
      exact ⟨{ k with trail.head := k.trail.head + 1 }, by simp only [run, hnext], h.room, h.few⟩
  | watch l ref =>
    obtain ⟨w, hw, hroom⟩ := h.room.add (c := ref) hfits
    exact ⟨_, bind_eq_ok_iff.2 ⟨w, hw, rfl⟩, hroom, h.few⟩
  | unwatch l ref =>
    obtain ⟨w, hw, hroom⟩ := h.room.remove (c := ref) hfits
    exact ⟨_, bind_eq_ok_iff.2 ⟨w, hw, rfl⟩, hroom, h.few⟩
  | take l =>
    obtain ⟨list, w, hw, hroom⟩ := h.room.take hfits
    exact ⟨_, bind_eq_ok_iff.2 ⟨_, hw, rfl⟩, hroom, h.few⟩

theorem OnTrail.valid {t : Trail} (h : op.OnTrail k.trail t) (ht : k.trail.Valid)
    (hfits : op.Fits k) : t.Valid := by
  cases op with
  | newVars count => exact ht.growTo (Nat.le_add_right _ _) h
  | assign l reason =>
    obtain rfl | ⟨rfl, hnone⟩ := h
    · exact ht
    · exact ht.push hfits hnone
  | decide l =>
    obtain ⟨rfl, hnone⟩ := h
    exact ht.openLevel.push hfits.1 hnone
  | openLevel =>
    obtain rfl := h
    exact ht.openLevel
  | undoTo level =>
    obtain rfl := h
    exact ht.undoTo
  | next | flush =>
    obtain ⟨n, -, hn, rfl⟩ := h
    exact ht.withHead hn
  | watch l ref | unwatch l ref | take l =>
    obtain rfl := h
    exact ht

/-- Every operation that fits has a result, after which the next one finds what it needs. -/
theorem run_succeeds (h : k.Prepared) (hfits : op.Fits k) :
    ∃ k', op.run k = .ok k' ∧ k'.Prepared := by
  obtain ⟨k', hk', hroom, hfew⟩ := run_has_room h hfits
  exact ⟨k', hk', (run_eq_ok h.trail hk').1.valid h.trail hfits, hroom, hfew⟩

/-- What stands on a trail goes on standing on it while no level up to that of the trail is taken
back. -/
theorem OnTrail.standsOn {t₀ t : Trail} (h : op.OnTrail k.trail t) (hk : k.trail.Valid)
    (hfits : op.Fits k) (ht₀ : t₀.Valid) (hs : t₀.StandsOn k.trail)
    (hundo : ∀ n, op = .undoTo n → t₀.level < n) : t₀.StandsOn t := by
  cases op with
  | newVars count => exact hs.of_growTo h
  | assign l reason =>
    obtain rfl | ⟨rfl, hnone⟩ := h
    · exact hs
    · exact hs.of_push (hk.covers hfits) hnone
  | decide l =>
    obtain ⟨rfl, hnone⟩ := h
    exact hs.of_openLevel.of_push (hk.covers hfits.1).openLevel hnone
  | openLevel =>
    obtain rfl := h
    exact hs.of_openLevel
  | undoTo level =>
    obtain rfl := h
    exact hs.of_undoTo ht₀ hk (hundo level rfl)
  | next | flush =>
    obtain ⟨n, hn, -, rfl⟩ := h
    exact hs.of_withHead hn
  | watch l ref | unwatch l ref | take l =>
    obtain rfl := h
    exact hs

/-- After a level was opened the trail stands on what it was before. -/
theorem Opens.standsOn {t : Trail} (ho : op.Opens) (h : op.OnTrail k.trail t)
    (hk : k.trail.Valid) (hfits : op.Fits k) : k.trail.StandsOn t := by
  cases op with
  | decide l =>
    obtain ⟨rfl, hnone⟩ := h
    exact (Trail.StandsOn.openLevel hk).of_push (hk.covers hfits.1).openLevel hnone
  | openLevel =>
    obtain rfl := h
    exact .openLevel hk
  | _ => exact ho.elim

end Operation

/-! ## Runs of operations -/

theorem Prepared.run (h : k.Prepared) (hfits : op.Fits k) (hr : op.run k = .ok k') :
    k'.Prepared := by
  obtain ⟨k₁, hk₁, hprepared⟩ := Operation.run_succeeds h hfits
  exact Except.ok.inj (hk₁.symm.trans hr) ▸ hprepared

namespace Runs

theorem prepared (h : Runs k ops k') (hk : k.Prepared) : k'.Prepared := by
  induction h with
  | nil => exact hk
  | cons fits step _ ih => exact ih (hk.run fits step)

/-- The watch lists are what the operations on them made of them. -/
theorem entries_eq (h : Runs k ops k') (hk : k.Prepared) :
    k'.watches.entries l = ops.foldl (Operation.onList l) (k.watches.entries l) := by
  induction h with
  | nil => rfl
  | cons fits step _ ih =>
    rw [ih (hk.run fits step), (Operation.run_eq_ok hk.trail step).2, List.foldl_cons]

theorem standsOn (h : Runs k ops k') (hk : k.Prepared) (hk₀ : k₀.Prepared)
    (hs : k₀.trail.StandsOn k.trail) (hundo : ∀ n, .undoTo n ∈ ops → k₀.trail.level < n) :
    k₀.trail.StandsOn k'.trail := by
  induction h with
  | nil => exact hs
  | cons fits step _ ih =>
    refine ih (hk.run fits step) ?_ fun n hn => hundo n (List.mem_cons_of_mem _ hn)
    refine (Operation.run_eq_ok hk.trail step).1.standsOn hk.trail fits hk₀.trail hs fun n hn => ?_
    exact hundo n (hn ▸ List.mem_cons_self)

/-- After a level was opened, the operations that take back no level up to the one before leave
everything below as it was. -/
theorem standsOn_of_opens (h : Runs k (op :: ops) k') (hk : k.Prepared) (ho : op.Opens)
    (hundo : ∀ n, .undoTo n ∈ ops → k.trail.level < n) : k.trail.StandsOn k'.trail := by
  cases h with
  | cons fits step rest =>
    have hopened := ho.standsOn (Operation.run_eq_ok hk.trail step).1 hk.trail fits
    exact rest.standsOn (hk.run fits step) hk hopened hundo

/-- After any run from the empty kernel the trail is coherent and every further operation that fits
has a result. If from there a level is opened, the levels up to the one before are never taken back,
and then the return to that one is made, then the assignment is the one right before the level was
opened, the queue waits where it was unless more of the trail below was taken off, and the watch lists
are what the operations on them made of them. -/
theorem exact_history (h : Runs {} ops k) :
    k.trail.Coherent ∧
    (∀ op : Operation, op.Fits k → ∃ k', op.run k = .ok k') ∧
    ∀ (op : Operation) (ops' : List Operation) (k₁ : Kernel), op.Opens →
      Runs k (op :: ops') k₁ → (∀ n, .undoTo n ∈ ops' → k.trail.level < n) →
      ∃ k₂, (Operation.undoTo k.trail.level).run k₁ = .ok k₂ ∧
        k.trail.SameAssignment k₂.trail ∧
        k.trail.head ≤ k₂.trail.head ∧ k₂.trail.head = min k₁.trail.head k.trail.literals.size ∧
        k₂.watches = k₁.watches ∧
        ∀ l, k₂.watches.entries l =
          (op :: ops').foldl (Operation.onList l) (k.watches.entries l) := by
  have hk := h.prepared .empty
  have hsmall : k.trail.vars < Var.signedLimit := Nat.lt_trans hk.few (by decide)
  refine ⟨hk.trail.coherent hsmall, fun op hfits => ?_, fun op ops' k₁ ho hrun hundo => ?_⟩
  · obtain ⟨k', hk', -⟩ := Operation.run_succeeds hk hfits
    exact ⟨k', hk'⟩
  · have hstands := hrun.standsOn_of_opens hk ho hundo
    obtain ⟨hsame, hhead⟩ := hstands.undoTo hk.trail (hrun.prepared hk).trail
    refine ⟨_, rfl, hsame, ?_, hhead, rfl, fun l => hrun.entries_eq hk⟩
    have h₁ := hstands.head
    have h₂ := hk.trail.head_le
    change k.trail.head ≤ (k₁.trail.undoTo k.trail.level).1.head
    omega

/-- In a level a variable is added and assigned, an assignment fails, another level is opened and the
queue is flushed. The return leaves the literal from before alone on the trail. -/
theorem exact_history_of_growth : ∃ k k₁ k₂ : Kernel,
    Runs {} [.newVars 2, .assign ⟨⟨1⟩, false⟩ none, .watch ⟨⟨2⟩, false⟩ ⟨0⟩] k ∧
    Runs k [.decide ⟨⟨2⟩, true⟩, .newVars 1, .assign ⟨⟨3⟩, false⟩ (some ⟨0⟩),
      .assign ⟨⟨1⟩, true⟩ none, .openLevel, .take ⟨⟨2⟩, false⟩, .flush] k₁ ∧
    k.trail.Coherent ∧ k₁.trail.level = 2 ∧
    k₁.trail.literals = #[⟨⟨1⟩, false⟩, ⟨⟨2⟩, true⟩, ⟨⟨3⟩, false⟩] ∧
    (Operation.undoTo 0).run k₁ = .ok k₂ ∧ k₂.trail.literals = #[⟨⟨1⟩, false⟩] ∧
    k₂.trail.head = 1 ∧ k₂.watches.entries ⟨⟨2⟩, false⟩ = #[] := by
  obtain ⟨k, k₁, hbefore, hwithin, hk, hlevel, hhead₁, hlevel₁, hk₁⟩ : ∃ k k₁ : Kernel,
      Runs {} [.newVars 2, .assign ⟨⟨1⟩, false⟩ none, .watch ⟨⟨2⟩, false⟩ ⟨0⟩] k ∧
      Runs k [.decide ⟨⟨2⟩, true⟩, .newVars 1, .assign ⟨⟨3⟩, false⟩ (some ⟨0⟩),
        .assign ⟨⟨1⟩, true⟩ none, .openLevel, .take ⟨⟨2⟩, false⟩, .flush] k₁ ∧
      k.trail.literals = #[⟨⟨1⟩, false⟩] ∧ k.trail.level = 0 ∧ k₁.trail.head = 3 ∧
      k₁.trail.level = 2 ∧
      k₁.trail.literals = #[⟨⟨1⟩, false⟩, ⟨⟨2⟩, true⟩, ⟨⟨3⟩, false⟩] := by
    refine ⟨_, _, .cons ?_ rfl (.cons ?_ rfl (.cons ?_ rfl (.nil _))),
      .cons ?_ rfl (.cons ?_ rfl (.cons ?_ rfl (.cons ?_ rfl (.cons ?_ rfl (.cons ?_ rfl
        (.cons ?_ rfl (.nil _))))))), rfl, rfl, rfl, rfl, rfl⟩
    all_goals decide
  obtain ⟨hcoherent, -, hundo⟩ := exact_history hbefore
  obtain ⟨k₂, hk₂, hsame, -, hhead, -, hentries⟩ :=
    hundo (.decide ⟨⟨2⟩, true⟩) _ k₁ trivial hwithin (by simp)
  rw [hlevel] at hk₂
  rw [hk, hhead₁] at hhead
  exact ⟨k, k₁, k₂, hbefore, hwithin, hcoherent, hlevel₁, hk₁, hk₂, hsame.literals.trans hk, hhead,
    hentries _⟩

end Runs
end Kernel
end Cdcl
