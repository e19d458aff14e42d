import Cdcl.Proofs.Resolution.Recording
import Cdcl.Proofs.Resolution.Soundness
import Cdcl.Resolution.Replay

/-!
# What an accepted replay shows

A replay whose resolution steps are all sound derives only clauses that follow from the roots it has
visited (`satisfies_of_follow`). So a log that passes the check refutes its roots up to the goal,
provided that no step on the way resolves on a variable of which one of the two clauses holds both
literals (`check_refutes`). Without the proviso a log whose roots have a model can pass
(`check_accepts_satisfiable_roots`).
-/

namespace Cdcl
set_option autoImplicit false

/-! ## Sound replays -/

/-- Every step of a chain that goes on from the clause `c` is sound. -/
def Checker.SoundSteps (k : Checker) : List Literal → List ResolutionStep → Prop
  | _, [] => True
  | c, (v, next) :: steps => ∀ d r, k.clause next = .ok d → resolve c d v = .ok r →
    SoundStep c d v r ∧ k.SoundSteps r steps

/-- Every step of an event is sound. -/
def Checker.SoundEvent (k : Checker) : Event → Prop
  | .chain _ start steps => ∀ c, k.clause start = .ok c → k.SoundSteps c steps
  | _ => True

/-- Every step that a replay takes on its way to the goal is sound. -/
def Log.SoundFrom (goal : ClauseId) : Checker → List Event → Prop
  | _, [] => True
  | k, e :: es => k.SoundEvent e ∧
    ∀ k', k.visit e = .ok (.ok (), k') → recorded e ≠ some goal → SoundFrom goal k' es

/-- Every step that the replay of a log takes on its way to the goal is sound. -/
def Log.SoundReplay (g : Log) (goal : ClauseId) : Prop := SoundFrom goal ⟨#[]⟩ g.decode.1

namespace Checker

variable {k k' : Checker} {a : Assignment} {id : ClauseId} {c r : List Literal}

/-- An assignment satisfies every clause that is not deleted. -/
def Models (k : Checker) (a : Assignment) : Prop := ∀ id c, k.clause id = .ok c → a.Satisfies c

theorem clause_eq_ok_iff : k.clause id = .ok c ↔ k.clauses[id]? = some (some c) := by
  unfold clause
  split
  · next d hd => simp [hd]
  · next hne =>
    constructor
    · intro h
      exact absurd h (by simp)
    · intro h
      exact absurd h (hne c)

theorem push_eq_ok (h : k.push id c = .ok k') :
    id = k.clauses.size ∧ k' = ⟨k.clauses.push (some c)⟩ := by
  obtain ⟨_, hreq, hk⟩ := bind_eq_ok_iff.1 h
  exact ⟨by simpa using require_eq_ok_iff.1 hreq, by simpa using hk.symm⟩

/-- What is available after a clause was put at the end. -/
theorem clause_push {d : List Literal} {j : ClauseId} :
    clause ⟨k.clauses.push (some c)⟩ j = .ok d ↔
      (j = k.clauses.size ∧ d = c) ∨ k.clause j = .ok d := by
  rw [clause_eq_ok_iff, clause_eq_ok_iff, Array.getElem?_push]
  split
  · next hj =>
    subst hj
    simp [eq_comm]
  · next hj => simp [hj]

theorem models_push (h : k.Models a) (hc : a.Satisfies c) :
    Models ⟨k.clauses.push (some c)⟩ a := by
  intro j d hd
  rcases clause_push.1 hd with ⟨-, rfl⟩ | hd
  · exact hc
  · exact h j d hd

theorem deleted_eq_ok (h : k.deleted id = .ok k') :
    id < k.clauses.size ∧ k' = ⟨k.clauses.setIfInBounds id none⟩ := by
  unfold deleted at h
  split at h
  · next hlt => exact ⟨hlt, by simpa using h.symm⟩
  · exact absurd h (by simp)

theorem clause_deleted {d : List Literal} {j : ClauseId} (hid : id < k.clauses.size) :
    clause ⟨k.clauses.setIfInBounds id none⟩ j = .ok d ↔ j ≠ id ∧ k.clause j = .ok d := by
  rw [clause_eq_ok_iff, clause_eq_ok_iff, Array.getElem?_setIfInBounds]
  by_cases hj : id = j
  · subst hj
    simp [hid]
  · simp [hj, Ne.symm hj]

/-! ### Chains and visits -/

theorem runSteps_cons_eq_ok {steps : List ResolutionStep} {v : Var} {next : ClauseId} :
    k.runSteps c ((v, next) :: steps) = .ok r ↔
      ∃ d m, k.clause next = .ok d ∧ Cdcl.resolve c d v = .ok m ∧ k.runSteps m steps = .ok r := by
  rw [runSteps]
  cases hd : k.clause next with
  | error e => simp [bind, Except.bind]
  | ok d =>
    cases hm : Cdcl.resolve c d v with
    | error e => simp [hm, bind, Except.bind]
    | ok m => simp [hm, bind, Except.bind]

theorem derive_eq_ok {start : ClauseId} {steps : List ResolutionStep} :
    k.derive start steps = .ok r ↔ ∃ c, k.clause start = .ok c ∧ k.runSteps c steps = .ok r := by
  unfold derive
  cases k.clause start with
  | error e => simp [bind, Except.bind]
  | ok c => simp [bind, Except.bind]

theorem settle_eq_ok {x : Except ResolutionError Checker} (h : k.settle x = (.ok (), k')) :
    x = .ok k' := by
  cases x with
  | error reason => exact absurd (Prod.mk.inj h).1 (by simp)
  | ok k₁ => exact congrArg Except.ok (Prod.mk.inj h).2

theorem settle_eq_error {x : Except ResolutionError Checker} {reason : ResolutionError}
    (h : k.settle x = (.error reason, k')) : k' = k ∧ x = .error reason := by
  cases x with
  | error reason' =>
    obtain ⟨hreason, hk'⟩ := Prod.mk.inj h
    exact ⟨hk'.symm, congrArg _ (Except.error.inj hreason)⟩
  | ok k₁ => exact absurd (Prod.mk.inj h).1 (by simp)

/-- What a record that is accepted does to the clauses. -/
theorem visit_eq_ok {e : Event} (h : k.visit e = .ok (.ok (), k')) :
    match e with
    | .root i ls => i = k.clauses.size ∧ k' = ⟨k.clauses.push (some ls)⟩
    | .chain i start steps => i = k.clauses.size ∧
      ∃ r, k.derive start steps = .ok r ∧ k' = ⟨k.clauses.push (some r)⟩
    | .deleted i => i < k.clauses.size ∧ k' = ⟨k.clauses.setIfInBounds i none⟩ := by
  cases e with
  | root i ls =>
    obtain ⟨k₁, hk₁, h⟩ := bind_eq_ok_iff.1 h
    obtain ⟨-, rfl⟩ := Prod.mk.inj (Except.ok.inj h)
    exact push_eq_ok hk₁
  | chain i start steps =>
    obtain ⟨x, hx, h⟩ := bind_eq_ok_iff.1 h
    obtain rfl := settle_eq_ok (Except.ok.inj h)
    unfold chain at hx
    split at hx
    · exact absurd hx (by simp)
    · next r hr =>
      obtain ⟨k₁, hk₁, hx⟩ := bind_eq_ok_iff.1 hx
      obtain rfl : k₁ = k' := Except.ok.inj (Except.ok.inj hx)
      obtain ⟨hi, hk'⟩ := push_eq_ok hk₁
      exact ⟨hi, r, hr, hk'⟩
  | deleted i => exact deleted_eq_ok (settle_eq_ok (Except.ok.inj h))

/-- A rejected record leaves the clauses as they are, and it deletes none of them. -/
theorem visit_eq_error {e : Event} {reason : ResolutionError}
    (h : k.visit e = .ok (.error reason, k')) :
    k' = k ∧ ∀ i, e = .deleted i → k.clauses.size ≤ i := by
  cases e with
  | root i ls =>
    obtain ⟨k₁, -, h⟩ := bind_eq_ok_iff.1 h
    exact absurd (Prod.mk.inj (Except.ok.inj h)).1 (by simp)
  | chain i start steps =>
    obtain ⟨x, -, h⟩ := bind_eq_ok_iff.1 h
    exact ⟨(settle_eq_error (Except.ok.inj h)).1, fun i he => absurd he (by simp)⟩
  | deleted i =>
    obtain ⟨hk', hdel⟩ := settle_eq_error (Except.ok.inj h)
    refine ⟨hk', fun j he => Nat.le_of_not_lt fun hlt => ?_⟩
    obtain rfl := Event.deleted.inj he
    simp [deleted, hlt] at hdel

theorem satisfies_of_runSteps {steps : List ResolutionStep} (hk : k.Models a)
    (hs : k.SoundSteps c steps) (hc : a.Satisfies c) (h : k.runSteps c steps = .ok r) :
    a.Satisfies r := by
  induction steps generalizing c with
  | nil =>
    obtain rfl : c = r := by simpa [runSteps] using h
    exact hc
  | cons s steps ih =>
    obtain ⟨v, next⟩ := s
    obtain ⟨d, m, hd, hm, h⟩ := runSteps_cons_eq_ok.1 h
    obtain ⟨hsound, hrest⟩ := hs d m hd hm
    exact ih hrest (Resolution.satisfies_of_soundStep hm hsound hc (hk next d hd)) h

/-- A visit keeps the clauses satisfied, if its steps are sound and the root that it may bring is
satisfied. A clause that it records is the next one. -/
theorem models_visit {e : Event} (hk : k.Models a) (hs : k.SoundEvent e)
    (hroot : ∀ i ls, e = .root i ls → i = k.clauses.size → a.Satisfies ls)
    (h : k.visit e = .ok (.ok (), k')) :
    k'.Models a ∧ match Log.recorded e with
      | some i => i = k.clauses.size ∧ k'.clauses.size = k.clauses.size + 1
      | none => k'.clauses.size = k.clauses.size := by
  have hv := visit_eq_ok h
  cases e with
  | root i ls =>
    obtain ⟨hi, rfl⟩ := hv
    exact ⟨models_push hk (hroot i ls rfl hi), hi, Array.size_push _⟩
  | chain i start steps =>
    obtain ⟨hi, r, hr, rfl⟩ := hv
    obtain ⟨c, hc, hr⟩ := derive_eq_ok.1 hr
    have hsat : a.Satisfies r := satisfies_of_runSteps hk (hs c hc) (hk start c hc) hr
    exact ⟨models_push hk hsat, hi, Array.size_push _⟩
  | deleted i =>
    obtain ⟨hi, rfl⟩ := hv
    refine ⟨fun j d hd => hk j d ((clause_deleted hi).1 hd).2, ?_⟩
    simp [Log.recorded]

end Checker

namespace Log

/-- A sound replay that reaches its goal leaves only clauses that follow from the roots up to it. -/
theorem satisfies_of_follow {goal : ClauseId} {stop : Option Fault} {k : Checker} {es : List Event}
    {r : Replay} {a : Assignment} (hk : k.Models a) (hsize : k.clauses.size ≤ goal)
    (hs : SoundFrom goal k es)
    (hroot : ∀ i ls, Event.root i ls ∈ es → i ≤ goal → a.Satisfies ls)
    (h : follow goal stop k es = .ok r) (hok : r.outcome = .ok ()) : r.checker.Models a := by
  induction es generalizing k r with
  | nil =>
    cases stop with
    | none =>
      obtain rfl : _ = r := Except.ok.inj h
      exact absurd hok (by simp)
    | some f => exact absurd h (by simp [follow])
  | cons e es ih =>
    obtain ⟨⟨x, k'⟩, hx, h⟩ := bind_eq_ok_iff.1 h
    cases x with
    | error reason =>
      obtain rfl : _ = r := Except.ok.inj h
      exact absurd hok (by simp)
    | ok =>
      obtain ⟨hk', hnext⟩ := Checker.models_visit hk hs.1
        (fun i ls he hi => hroot i ls (he ▸ List.mem_cons_self) (hi ▸ hsize)) hx
      simp only at h
      split at h
      · obtain rfl : _ = r := Except.ok.inj h
        exact hk'
      · next hne =>
        obtain ⟨r', hr', h⟩ := bind_eq_ok_iff.1 h
        obtain rfl : _ = r := Except.ok.inj h
        have hsize' : k'.clauses.size ≤ goal := by
          cases hrec : recorded e with
          | none =>
            rw [hrec] at hnext
            exact hnext ▸ hsize
          | some i =>
            rw [hrec] at hnext hne
            obtain ⟨hi, hsz⟩ := hnext
            have hi' : i ≠ goal := fun hi' => hne (congrArg some hi')
            rw [hsz]
            exact Nat.lt_of_le_of_ne hsize (hi ▸ hi')
        exact ih (r := r') hk' hsize' (hs.2 k' hx hne)
          (fun i ls hmem => hroot i ls (List.mem_cons_of_mem e hmem)) hr' hok

theorem check_eq_ok {g : Log} {goal : Option ClauseId} {id : ClauseId}
    (hgoal : g.target goal = some id) (h : g.check goal = .ok (.ok ())) :
    ∃ r, follow id g.decode.2 ⟨#[]⟩ g.decode.1 = .ok r ∧ r.outcome = .ok () ∧
      r.checker.clause id = .ok [] := by
  obtain ⟨r, hr, h⟩ := bind_eq_ok_iff.1 h
  obtain ⟨r', hr', hr⟩ := bind_eq_ok_iff.1 hr
  rw [hgoal] at hr
  obtain rfl : _ = r := Except.ok.inj hr
  have hjudge : judge id r' = .ok () := Except.ok.inj h
  unfold traverse at hr'
  rw [hgoal] at hr'
  refine ⟨r', hr', ?_⟩
  unfold judge at hjudge
  cases ho : r'.outcome with
  | error e => simp [ho, bind, Except.bind] at hjudge
  | ok u =>
    cases hc : r'.checker.clause id with
    | error e => simp [ho, hc, bind, Except.bind] at hjudge
    | ok c =>
      simp only [ho, hc, bind, Except.bind] at hjudge
      split at hjudge
      · next hempty => exact ⟨rfl, congrArg _ (List.isEmpty_iff.1 hempty)⟩
      · exact absurd hjudge (by simp)

theorem mem_of_root_mem_heardFrom {next i : ClauseId} {es : List Event} {ms : List Literal}
    (h : Event.root i ms ∈ Event.heardFrom next es) : Event.root i ms ∈ es := by
  induction es generalizing next with
  | nil => exact h
  | cons e es ih =>
    rcases List.mem_cons.1 h with he | h
    · cases e with
      | root j ls => exact he ▸ List.mem_cons_self
      | chain j start steps => exact absurd he (by simp [Event.heard])
      | deleted gone => exact absurd he (by simp [Event.heard])
    · exact List.mem_cons_of_mem e (ih h)

/-- A log that passes the check refutes the roots up to its goal, if every resolution step that the
replay takes is sound; and a step is sound exactly if it keeps the meaning of the clauses. -/
theorem check_refutes {h : List (Call × Option ClauseId)} {g : Log} {goal : Option ClauseId}
    {id : ClauseId} (hr : Run h g) (hgoal : g.target goal = some id)
    (hcheck : g.check goal = .ok (.ok ())) (hs : g.SoundReplay id) :
    (¬ ∃ a : Assignment, ∀ ls i, (.root ls, some i) ∈ h → i ≤ id → a.Satisfies ls) ∧
      ∀ c d v r, Cdcl.resolve c d v = .ok r →
        ((∀ a : Assignment, a.Satisfies c → a.Satisfies d → a.Satisfies r) ↔
          SoundStep c d v r) := by
  refine ⟨?_, fun c d v r => Resolution.resolve_sound_iff⟩
  rintro ⟨a, ha⟩
  obtain ⟨es, hes, hroots⟩ := hr.records
  obtain ⟨r, hfollow, hok, hempty⟩ := check_eq_ok hgoal hcheck
  have hstart : Checker.Models ⟨#[]⟩ a := by
    intro j c hc
    simp [Checker.clause_eq_ok_iff] at hc
  have hsat : ∀ i ms, Event.root i ms ∈ g.decode.1 → i ≤ id → a.Satisfies ms := by
    intro i ms hmem hi
    rw [hes.decode] at hmem
    obtain ⟨ls, rfl, hin⟩ := hroots i ms (mem_of_root_mem_heardFrom hmem)
    exact (Assignment.satisfies_congr fun l => Literal.mem_canonical).2 (ha ls i hin hi)
  have hmodels := satisfies_of_follow hstart (Nat.zero_le id) hs hsat hfollow hok
  exact a.not_satisfies_nil (hmodels id [] hempty)

/-- The calls that add two roots and resolve them on variable 1, with their answers. -/
def resolving (c d : List Literal) : List (Call × Option ClauseId) :=
  [(.root c, some 0), (.root d, some 1), (.beginChain 0, none), (.resolve 1 ⟨1⟩, none),
    (.endChain, some 2)]

/-- The log that these calls lead to. -/
def resolved (c d : List Literal) : Log :=
  let g := ((({} : Log).addRoot c).2.addRoot d).2
  { words := g.words ++ [5, 1, 1, 0], nextId := 3, start := some 0, steps := #[(⟨1⟩, 1)] }

theorem run_resolved {c d : List Literal} (hc : ∀ l ∈ c, Event.LiteralFits l)
    (hd : ∀ l ∈ d, Event.LiteralFits l) : Run (resolving c d) (resolved c d) :=
  ((((Run.nil.snoc (c := .root c) hc rfl).snoc (c := .root d) hd rfl).snoc
    (c := .beginChain 0) trivial rfl).snoc (c := .resolve 1 ⟨1⟩) Nat.one_ne_zero rfl).snoc
    (c := .endChain) trivial rfl

/-- Opposite units are refuted. -/
theorem check_refutes_opposite_units :
    (resolved [⟨⟨1⟩, false⟩] [⟨⟨1⟩, true⟩]).check none = .ok (.ok ()) ∧
      ¬ ∃ a : Assignment, ∀ ls i, (.root ls, some i) ∈ resolving [⟨⟨1⟩, false⟩] [⟨⟨1⟩, true⟩] →
        i ≤ 2 → a.Satisfies ls := by
  have hcheck : (resolved [⟨⟨1⟩, false⟩] [⟨⟨1⟩, true⟩]).check none = .ok (.ok ()) := rfl
  refine ⟨hcheck, (check_refutes (run_resolved ?_ ?_) rfl hcheck ?_).1⟩
  · simp [Event.LiteralFits, Event.varLimit]
  · simp [Event.LiteralFits, Event.varLimit]
  · refine ⟨trivial, fun k₁ h₁ _ => ⟨trivial, fun k₂ h₂ _ => ⟨fun c hc => ?_, fun _ _ _ => trivial⟩⟩⟩
    obtain rfl : _ = k₁ := (Prod.mk.inj (Except.ok.inj h₁)).2
    obtain rfl : _ = k₂ := (Prod.mk.inj (Except.ok.inj h₂)).2
    obtain rfl : _ = c := Except.ok.inj hc
    refine fun d r hd _ => ⟨Or.inl ?_, trivial⟩
    obtain rfl : _ = d := Except.ok.inj hd
    exact ⟨fun h => absurd h.2 (by decide), fun h => absurd h.1 (by decide)⟩

/-- A tautology and a unit have a model, but resolving them gives the empty clause. -/
theorem check_accepts_satisfiable_roots :
    let h := resolving [⟨⟨1⟩, false⟩, ⟨⟨1⟩, true⟩] [⟨⟨1⟩, true⟩]
    ∃ g, Run h g ∧ g.target none = some 2 ∧ g.check none = .ok (.ok ()) ∧
      ∃ a : Assignment, ∀ ls i, (.root ls, some i) ∈ h → i ≤ 2 → a.Satisfies ls := by
  refine ⟨_, run_resolved ?_ ?_, rfl, rfl, fun _ => false, ?_⟩
  · simp [Event.LiteralFits, Event.varLimit]
  · simp [Event.LiteralFits, Event.varLimit]
  · intro ls i hmem _
    have hneg : (⟨⟨1⟩, true⟩ : Literal) ∈ ls := by
      simp only [resolving, List.mem_cons, Prod.mk.injEq, Call.root.injEq] at hmem
      rcases hmem with ⟨rfl, -⟩ | ⟨rfl, -⟩ | h
      · simp
      · simp
      · simp at h
    exact ⟨_, hneg, rfl⟩

end Log
end Cdcl
