import Mathlib.Data.List.Nodup
import Mathlib.Data.Set.Basic
import Cdcl.Proofs.Resolution.Replaying

/-!
# What a checker guarantees

`Checker.receive` is what becomes of a checker that is given a record, accepted or not.
`Checker.Yields` describes a chain by sets of literals: each step takes away the pivot and joins
what is left of the two clauses. However the records of a log are accepted and rejected, the clauses
that are available ascend strictly, and they follow from the roots if no clause that is resolved holds both
literals of a variable. A chain of such clauses is accepted exactly if it yields a set of literals,
which is the clause it derives, and what was deleted stays away (`replay_guarantees`).
-/

namespace Cdcl.Checker
set_option autoImplicit false

/-- The checker after a record, which it may have rejected. -/
def receive (k : Checker) (e : Event) : Except Fault Checker := do
  let (_, k') ← k.visit e
  .ok k'

def receiveAll (k : Checker) : List Event → Except Fault Checker
  | [] => .ok k
  | e :: es => do
    let k' ← k.receive e
    k'.receiveAll es

/-- Resolving a set of literals with the clauses of the steps in turn: the clauses are available, the
pivot occurs in both with opposite signs, and every other literal of either is left. -/
inductive Yields (k : Checker) : Set Literal → List ResolutionStep → Set Literal → Prop where
  | done (S : Set Literal) : Yields k S [] S
  | step {S T : Set Literal} {v : Var} {next : ClauseId} {d : List Literal} {b : Bool}
      {steps : List ResolutionStep} (alive : k.clause next = .ok d) (pivot : ⟨v, b⟩ ∈ S)
      (opposite : ⟨v, !b⟩ ∈ d) (rest : Yields k { l | (l ∈ S ∨ l ∈ d) ∧ l.var ≠ v } steps T) :
      Yields k S ((v, next) :: steps) T

/-- No clause that a chain resolves from the clause `c` on holds both literals of a variable. -/
def PlainSteps (k : Checker) : List Literal → List ResolutionStep → Prop
  | _, [] => True
  | c, (v, next) :: steps => ¬ Tautology c ∧ ∀ d, k.clause next = .ok d →
    ¬ Tautology d ∧ ∀ r, Cdcl.resolve c d v = .ok r → k.PlainSteps r steps

/-- No clause that is resolved in the record holds both literals of a variable. -/
def PlainEvent (k : Checker) : Event → Prop
  | .chain _ start steps => ∀ c, k.clause start = .ok c → k.PlainSteps c steps
  | _ => True

/-- No clause that is resolved in one of the records, received one after the other, holds both
literals of a variable. -/
def PlainFrom (k : Checker) : List Event → Prop
  | [] => True
  | e :: es => k.PlainEvent e ∧ ∀ k', k.receive e = .ok k' → k'.PlainFrom es

/-- Every clause that is available ascends strictly. -/
def Ordered (k : Checker) : Prop := ∀ id c, k.clause id = .ok c → Literal.Ascending c

variable {k k' k₁ : Checker} {e : Event} {es : List Event} {c r : List Literal} {id : ClauseId}
  {steps : List ResolutionStep} {S T : Set Literal} {a : Assignment}

/-! ## Order -/

theorem ordered_empty : Ordered ⟨#[]⟩ := fun _ _ hc => by simp [clause_eq_ok_iff] at hc

theorem Ordered.push (h : k.Ordered) (hc : Literal.Ascending c) :
    Ordered ⟨k.clauses.push (some c)⟩ := by
  intro id d hd
  rcases clause_push.1 hd with ⟨-, rfl⟩ | hd
  · exact hc
  · exact h id d hd

/-- Every resolvent ascends, so what a chain derives does. -/
theorem ascending_of_runSteps (hc : Literal.Ascending c) (h : k.runSteps c steps = .ok r) :
    Literal.Ascending r := by
  induction steps generalizing c with
  | nil =>
    obtain rfl : c = r := by simpa [runSteps] using h
    exact hc
  | cons s steps ih =>
    obtain ⟨v, next⟩ := s
    obtain ⟨d, m, -, hm, h⟩ := runSteps_cons_eq_ok.1 h
    exact ih (Resolution.ascending_of_resolve hm) h

theorem Ordered.visit (h : k.Ordered) (hroot : ∀ i ls, e = .root i ls → Literal.Ascending ls)
    (hv : k.visit e = .ok (.ok (), k')) : k'.Ordered := by
  have hv := visit_eq_ok hv
  cases e with
  | root i ls =>
    obtain ⟨-, rfl⟩ := hv
    exact h.push (hroot i ls rfl)
  | chain i start steps =>
    obtain ⟨-, r, hr, rfl⟩ := hv
    obtain ⟨c, hc, hr⟩ := derive_eq_ok.1 hr
    exact h.push (ascending_of_runSteps (h start c hc) hr)
  | deleted i =>
    obtain ⟨hi, rfl⟩ := hv
    exact fun j d hd => h j d ((clause_deleted hi).1 hd).2

/-! ## Chains as sets of literals -/

/-- A chain that can be carried out yields the literals of the clause it ends with. -/
theorem yields_of_runSteps (h : k.runSteps c steps = .ok r) :
    k.Yields { l | l ∈ c } steps { l | l ∈ r } := by
  induction steps generalizing c with
  | nil =>
    obtain rfl : c = r := by simpa [runSteps] using h
    exact .done _
  | cons s steps ih =>
    obtain ⟨v, next⟩ := s
    obtain ⟨d, m, hd, hm, h⟩ := runSteps_cons_eq_ok.1 h
    obtain ⟨rfl, b, hbc, hbd⟩ := Resolution.of_resolve_eq_ok hm
    refine .step hd hbc hbd ?_
    have hrest := ih h
    simp only [Resolution.mem_resolvent] at hrest
    exact hrest

theorem not_tautology (h : (c.map Literal.var).Nodup) : ¬ Tautology c := by
  rintro ⟨v, hf, ht⟩
  exact absurd (List.inj_on_of_nodup_map h hf ht rfl) (by simp)

theorem eq_of_not_tautology {l j : Literal} (hc : ¬ Tautology c) (hl : l ∈ c) (hj : j ∈ c)
    (hv : j.var = l.var) : j = l := by
  obtain ⟨v, b⟩ := l
  obtain ⟨w, b'⟩ := j
  obtain rfl : w = v := hv
  rw [Resolution.sign_unique (fun htwo => hc ⟨w, htwo⟩) hl hj]

/-- A chain that yields something can be carried out if no clause on the way holds both literals of a
variable. -/
theorem runSteps_of_yields (h : k.Yields S steps T) (hS : S = { l | l ∈ c })
    (hplain : k.PlainSteps c steps) : ∃ r, k.runSteps c steps = .ok r ∧ T = { l | l ∈ r } := by
  induction h generalizing c with
  | done S => exact ⟨c, rfl, hS⟩
  | @step S T v next d b steps hd hb hopposite rest ih =>
    subst hS
    obtain ⟨hc, hplain⟩ := hplain
    obtain ⟨hd', hrest⟩ := hplain d hd
    have hm : Cdcl.resolve c d v = .ok (resolvent c d v) :=
      Resolution.resolve_eq (l := ⟨v, b⟩) hb hopposite (fun j hj => eq_of_not_tautology hc hb hj)
        fun j hj => eq_of_not_tautology (l := ⟨v, !b⟩) hd' hopposite hj
    obtain ⟨r, hr, hT⟩ := ih (c := resolvent c d v)
      (Set.ext fun l => (Resolution.mem_resolvent (c := c)).symm) (hrest _ hm)
    exact ⟨r, runSteps_cons_eq_ok.2 ⟨d, _, hd, hm, hr⟩, hT⟩

theorem Yields.unique {T' : Set Literal} (h : k.Yields S steps T) (h' : k.Yields S steps T') :
    T' = T := by
  induction h with
  | done S =>
    cases h'
    rfl
  | step hd hb hopposite rest ih =>
    cases h' with
    | step hd' hb' hopposite' rest' =>
      obtain rfl := Except.ok.inj (hd.symm.trans hd')
      exact ih rest'

/-! ## Meaning -/

theorem PlainSteps.sound (h : k.PlainSteps c steps) : k.SoundSteps c steps := by
  induction steps generalizing c with
  | nil => trivial
  | cons s steps ih =>
    obtain ⟨v, next⟩ := s
    obtain ⟨hc, h⟩ := h
    intro d r hd hr
    obtain ⟨hd', hrest⟩ := h d hd
    exact ⟨Or.inl ⟨fun htwo => hc ⟨v, htwo⟩, fun htwo => hd' ⟨v, htwo⟩⟩, ih (hrest r hr)⟩

theorem PlainEvent.sound (h : k.PlainEvent e) : k.SoundEvent e := by
  cases e with
  | root i ls => trivial
  | chain i start steps => exact fun c hc => (h c hc).sound
  | deleted i => trivial

/-! ## Receiving records -/

theorem receive_eq_ok (h : k.receive e = .ok k') :
    k.visit e = .ok (.ok (), k') ∨ (k' = k ∧ ∃ reason, k.visit e = .ok (.error reason, k)) := by
  obtain ⟨⟨x, k₁⟩, hx, h⟩ := bind_eq_ok_iff.1 h
  obtain rfl : k₁ = k' := Except.ok.inj h
  cases x with
  | ok => exact Or.inl hx
  | error reason =>
    obtain ⟨rfl, -⟩ := visit_eq_error hx
    exact Or.inr ⟨rfl, reason, hx⟩

/-- A record that takes the next number, or none, is accepted or rejected. -/
theorem visit_succeeds (h : ∀ i, Log.recorded e = some i → i = k.clauses.size) :
    ∃ x, k.visit e = .ok x := by
  have hpush : ∀ i c, i = k.clauses.size → k.push i c = .ok ⟨k.clauses.push (some c)⟩ :=
    fun i c hi => bind_eq_ok_iff.2 ⟨(), require_eq_ok_iff.2 (by simpa using hi), rfl⟩
  cases e with
  | root i ls => exact ⟨_, bind_eq_ok_iff.2 ⟨_, hpush i ls (h i rfl), rfl⟩⟩
  | chain i start steps =>
    obtain ⟨x, hx⟩ : ∃ x, k.chain i start steps = .ok x := by
      unfold chain
      split
      · exact ⟨_, rfl⟩
      · exact ⟨_, bind_eq_ok_iff.2 ⟨_, hpush i _ (h i rfl), rfl⟩⟩
    exact ⟨_, bind_eq_ok_iff.2 ⟨x, hx, rfl⟩⟩
  | deleted i => exact ⟨_, rfl⟩

/-- A record changes no clause that is there but the one it deletes. -/
theorem getElem?_receive (h : k.receive e = .ok k') (hid : id < k.clauses.size) :
    k'.clauses[id]? = if e = .deleted id then some none else k.clauses[id]? := by
  rcases receive_eq_ok h with h | ⟨rfl, reason, h⟩
  · have hv := visit_eq_ok h
    cases e with
    | root i ls =>
      obtain ⟨-, rfl⟩ := hv
      simp [Array.getElem?_push, Nat.ne_of_lt hid]
    | chain i start steps =>
      obtain ⟨-, r, -, rfl⟩ := hv
      simp [Array.getElem?_push, Nat.ne_of_lt hid]
    | deleted i =>
      obtain ⟨hi, rfl⟩ := hv
      by_cases heq : i = id
      · subst heq
        simp [hi]
      · simp [heq]
  · have hne : e ≠ .deleted id := by
      rintro rfl
      exact absurd ((visit_eq_error h).2 id rfl) (Nat.not_le_of_lt hid)
    rw [if_neg hne]

/-- The place of a deleted clause stays empty. -/
theorem getElem?_receiveAll (h : k.receiveAll es = .ok k') (hid : k.clauses[id]? = some none) :
    k'.clauses[id]? = some none := by
  induction es generalizing k with
  | nil =>
    obtain rfl : k = k' := Except.ok.inj h
    exact hid
  | cons e es ih =>
    obtain ⟨k₁, hk₁, h⟩ := bind_eq_ok_iff.1 h
    refine ih h ?_
    rw [getElem?_receive hk₁ (Array.getElem?_eq_some_iff.1 hid).1, hid]
    split <;> rfl

theorem Ordered.receiveAll (hk : k.Ordered) (h : k.receiveAll es = .ok k')
    (hroots : ∀ i ls, .root i ls ∈ es → Literal.Ascending ls) : k'.Ordered := by
  induction es generalizing k with
  | nil =>
    obtain rfl : k = k' := Except.ok.inj h
    exact hk
  | cons e es ih =>
    obtain ⟨k₁, hk₁, h⟩ := bind_eq_ok_iff.1 h
    refine ih ?_ h fun i ls hin => hroots i ls (List.mem_cons_of_mem e hin)
    rcases receive_eq_ok hk₁ with hv | ⟨rfl, -⟩
    · exact hk.visit (fun i ls he => hroots i ls (he ▸ List.mem_cons_self)) hv
    · exact hk

theorem Models.receiveAll (hk : k.Models a) (h : k.receiveAll es = .ok k')
    (hplain : k.PlainFrom es) (hroots : ∀ i ls, .root i ls ∈ es → a.Satisfies ls) :
    k'.Models a := by
  induction es generalizing k with
  | nil =>
    obtain rfl : k = k' := Except.ok.inj h
    exact hk
  | cons e es ih =>
    obtain ⟨k₁, hk₁, h⟩ := bind_eq_ok_iff.1 h
    obtain ⟨hevent, hplain⟩ := hplain
    refine ih ?_ h (hplain k₁ hk₁) fun i ls hin => hroots i ls (List.mem_cons_of_mem e hin)
    rcases receive_eq_ok hk₁ with hv | ⟨rfl, -⟩
    · refine (models_visit hk hevent.sound (fun i ls he _ => ?_) hv).1
      exact hroots i ls (he ▸ List.mem_cons_self)
    · exact hk

/-! ## The whole replay -/

/-- A chain that takes the next number is accepted exactly if it derives a clause. -/
theorem visit_chain_iff {start : ClauseId} :
    k.visit (.chain k.clauses.size start steps) = .ok (.ok (), k') ↔
      ∃ r, k.derive start steps = .ok r ∧ k' = ⟨k.clauses.push (some r)⟩ := by
  refine ⟨fun h => (visit_eq_ok h).2, ?_⟩
  rintro ⟨r, hr, rfl⟩
  refine bind_eq_ok_iff.2 ⟨.ok ⟨k.clauses.push (some r)⟩, ?_, rfl⟩
  unfold chain
  rw [hr]
  exact bind_eq_ok_iff.2 ⟨_, bind_eq_ok_iff.2 ⟨(), require_eq_ok_iff.2 (by simp), rfl⟩, rfl⟩

/-- After any records with ascending roots, accepted or rejected, the clauses that are available
ascend, and they follow from the roots if no clause that was resolved holds both literals of a
variable. The next record has a result if its number is the next one; a rejected one changes nothing,
and another one changes only the clause it deletes. A chain of such clauses is accepted if and only
if it yields a set of literals, and every accepted chain adds the clause of the one set it yields.
What is deleted is never available again. -/
theorem replay_guarantees (h : ({} : Checker).receiveAll es = .ok k)
    (hroots : ∀ i ls, .root i ls ∈ es → Literal.Ascending ls) :
    (∀ id c, k.clause id = .ok c → Literal.Ascending c) ∧
    (({} : Checker).PlainFrom es → ∀ a : Assignment,
      (∀ i ls, .root i ls ∈ es → a.Satisfies ls) → ∀ id c, k.clause id = .ok c → a.Satisfies c) ∧
    (∀ start steps, k.PlainEvent (.chain k.clauses.size start steps) →
      ((∃ k', k.visit (.chain k.clauses.size start steps) = .ok (.ok (), k')) ↔
        ∃ c T, k.clause start = .ok c ∧ k.Yields { l | l ∈ c } steps T)) ∧
    (∀ start steps k', k.visit (.chain k.clauses.size start steps) = .ok (.ok (), k') →
      ∃ c r, k.clause start = .ok c ∧ k.Yields { l | l ∈ c } steps { l | l ∈ r } ∧
        (∀ T, k.Yields { l | l ∈ c } steps T → T = { l | l ∈ r }) ∧ Literal.Ascending r ∧
        k'.clauses = k.clauses.push (some r)) ∧
    (∀ e, (∀ i, Log.recorded e = some i → i = k.clauses.size) → ∃ outcome k',
      k.visit e = .ok (outcome, k') ∧ k.receive e = .ok k' ∧
      (∀ reason, outcome = .error reason → k' = k) ∧
      ∀ id < k.clauses.size,
        k'.clauses[id]? = if e = .deleted id then some none else k.clauses[id]?) ∧
    ∀ id k₁ es' k', k.visit (.deleted id) = .ok (.ok (), k₁) → k₁.receiveAll es' = .ok k' →
      k'.clause id = .error (.danglingClause id) := by
  have hordered : k.Ordered := ordered_empty.receiveAll h hroots
  refine ⟨hordered, fun hplain a ha => ?_, fun start steps hplain => ?_, fun start steps k' hk' => ?_,
    fun e he => ?_, fun id k₁ es' k' hk₁ hk' => ?_⟩
  · have hempty : ({} : Checker).Models a := fun id c hc => by simp [clause_eq_ok_iff] at hc
    exact hempty.receiveAll h hplain ha
  · constructor
    · rintro ⟨k', hk'⟩
      obtain ⟨r, hr, -⟩ := visit_chain_iff.1 hk'
      obtain ⟨c, hc, hr⟩ := derive_eq_ok.1 hr
      exact ⟨c, _, hc, yields_of_runSteps hr⟩
    · rintro ⟨c, T, hc, hT⟩
      obtain ⟨r, hr, -⟩ := runSteps_of_yields hT rfl (hplain c hc)
      exact ⟨_, visit_chain_iff.2 ⟨r, derive_eq_ok.2 ⟨c, hc, hr⟩, rfl⟩⟩
  · obtain ⟨r, hr, rfl⟩ := visit_chain_iff.1 hk'
    obtain ⟨c, hc, hr⟩ := derive_eq_ok.1 hr
    have hyields := yields_of_runSteps hr
    exact ⟨c, r, hc, hyields, fun T hT => hyields.unique hT, ascending_of_runSteps (hordered _ c hc) hr,
      rfl⟩
  · obtain ⟨⟨outcome, k'⟩, hk'⟩ := visit_succeeds he
    have hreceive : k.receive e = .ok k' := bind_eq_ok_iff.2 ⟨_, hk', rfl⟩
    refine ⟨outcome, k', hk', hreceive, fun reason hreason => ?_,
      fun id hid => getElem?_receive hreceive hid⟩
    rw [hreason] at hk'
    exact (visit_eq_error hk').1
  · obtain ⟨hid, rfl⟩ := visit_eq_ok hk₁
    have hgone : k'.clauses[id]? = some none := getElem?_receiveAll hk' (by simp [hid])
    unfold clause
    rw [hgone]

/-- Of two roots the resolvent is derived and one is deleted, after which the same chain is rejected.
What is available follows from the roots. -/
theorem replay_guarantees_resolvent :
    ({} : Checker).receiveAll
      [.root 0 [⟨⟨1⟩, false⟩, ⟨⟨2⟩, false⟩], .root 1 [⟨⟨1⟩, true⟩, ⟨⟨3⟩, false⟩],
        .chain 2 0 [(⟨1⟩, 1)], .deleted 1, .chain 3 0 [(⟨1⟩, 1)], .deleted 7] =
      .ok ⟨#[some [⟨⟨1⟩, false⟩, ⟨⟨2⟩, false⟩], none, some [⟨⟨2⟩, false⟩, ⟨⟨3⟩, false⟩]]⟩ ∧
    ∀ a : Assignment, a.Satisfies [⟨⟨1⟩, false⟩, ⟨⟨2⟩, false⟩] →
      a.Satisfies [⟨⟨1⟩, true⟩, ⟨⟨3⟩, false⟩] → a.Satisfies [⟨⟨2⟩, false⟩, ⟨⟨3⟩, false⟩] := by
  have hrun : ({} : Checker).receiveAll
      [.root 0 [⟨⟨1⟩, false⟩, ⟨⟨2⟩, false⟩], .root 1 [⟨⟨1⟩, true⟩, ⟨⟨3⟩, false⟩],
        .chain 2 0 [(⟨1⟩, 1)], .deleted 1, .chain 3 0 [(⟨1⟩, 1)], .deleted 7] =
      .ok ⟨#[some [⟨⟨1⟩, false⟩, ⟨⟨2⟩, false⟩], none, some [⟨⟨2⟩, false⟩, ⟨⟨3⟩, false⟩]]⟩ := rfl
  have hroots : ∀ i ls, .root i ls ∈ [Event.root 0 [⟨⟨1⟩, false⟩, ⟨⟨2⟩, false⟩],
      .root 1 [⟨⟨1⟩, true⟩, ⟨⟨3⟩, false⟩], .chain 2 0 [(⟨1⟩, 1)], .deleted 1, .chain 3 0 [(⟨1⟩, 1)],
      .deleted 7] → ls = [⟨⟨1⟩, false⟩, ⟨⟨2⟩, false⟩] ∨ ls = [⟨⟨1⟩, true⟩, ⟨⟨3⟩, false⟩] := by
    simp only [List.mem_cons, Event.root.injEq, reduceCtorEq, List.not_mem_nil, or_false]
    exact fun i ls hin => hin.imp And.right And.right
  obtain ⟨-, hmeaning, -⟩ := replay_guarantees hrun fun i ls hin => by
    rcases hroots i ls hin with rfl | rfl <;> simp [Literal.code]
  refine ⟨hrun, fun a h₁ h₂ => hmeaning ?_ a (fun i ls hin => ?_) 2 _ rfl⟩
  · refine ⟨trivial, fun k hk => ?_⟩
    obtain rfl := Except.ok.inj hk
    refine ⟨trivial, fun k hk => ?_⟩
    obtain rfl := Except.ok.inj hk
    refine ⟨fun c hc => ?_, fun k hk => ?_⟩
    · obtain rfl := Except.ok.inj hc
      refine ⟨not_tautology (by decide), fun d hd => ⟨?_, fun _ _ => trivial⟩⟩
      obtain rfl := Except.ok.inj hd
      exact not_tautology (by decide)
    obtain rfl := Except.ok.inj hk
    refine ⟨trivial, fun k hk => ?_⟩
    obtain rfl : k = ⟨#[some [⟨⟨1⟩, false⟩, ⟨⟨2⟩, false⟩], none, some [⟨⟨2⟩, false⟩, ⟨⟨3⟩, false⟩]]⟩ :=
      (Except.ok.inj hk).symm
    refine ⟨fun c hc => ?_, fun k hk => ?_⟩
    · obtain rfl := Except.ok.inj hc
      refine ⟨not_tautology (by decide), fun d hd => ?_⟩
      simp [clause_eq_ok_iff] at hd
    exact ⟨trivial, fun _ _ => trivial⟩
  · rcases hroots i ls hin with rfl | rfl
    · exact h₁
    · exact h₂

end Cdcl.Checker
