import Cdcl.Proofs.Resolution.Writing

/-!
# Chains that stay open

A log does not store whether a chain is open. Its start and its steps are set by `beginChain` and
extended by `resolve`, and ending a chain leaves them behind. So `resolve` and `endChain` are rejected
before the first chain is begun, and never after that: a chain that was ended can be extended and
ended again, and each time all its steps are written (`bracketing_of_calls`). A chain is written once
for every end that comes after its first step.
-/

namespace Cdcl.Log
set_option autoImplicit false

/-- The step that a call adds to a chain. -/
def Call.step : Call → Option ResolutionStep
  | .resolve next v => some (v, next)
  | _ => none

def Call.begins : Call → Bool
  | .beginChain _ => true
  | _ => false

def Call.ends : Call → Bool
  | .endChain => true
  | _ => false

/-- The calls from the first resolution step on. -/
def fromFirstStep (cs : List Call) : List Call := cs.dropWhile fun c => c.step.isNone

/-- A chain has been begun. -/
def Begun (cs : List Call) : Prop := ∃ c ∈ cs, c.begins

/-- A chain has been begun, and no chain has been ended since. -/
def Opened (cs : List Call) : Prop :=
  ∃ pre start rest, cs = pre ++ .beginChain start :: rest ∧ ∀ c ∈ rest, ¬ c.ends

/-- Whether a record is a derived clause. -/
def isChain : Event → Bool
  | .chain _ _ _ => true
  | _ => false

variable {g g' : Log} {c : Call} {cs : List Call} {r : Option ClauseId}
  {rs : List (Option ClauseId)} {start : ClauseId}

/-! ## What a log holds of its last chain -/

theorem perform_start (hc : ¬ c.begins) (hg : g.perform c = .ok (r, g')) :
    g'.start = g.start ∧ g'.steps.toList = g.steps.toList ++ c.step.toList := by
  cases c with
  | root ls =>
    obtain ⟨-, rfl⟩ := Prod.mk.inj (Except.ok.inj hg)
    exact ⟨rfl, (List.append_nil _).symm⟩
  | beginChain start => exact absurd rfl hc
  | resolve next v =>
    obtain ⟨g₁, hg₁, hg⟩ := bind_eq_ok_iff.1 hg
    obtain ⟨-, rfl⟩ := Prod.mk.inj (Except.ok.inj hg)
    obtain ⟨-, rfl⟩ := resolve_eq_ok hg₁
    exact ⟨rfl, Array.toList_push⟩
  | endChain =>
    obtain ⟨⟨id, g₁⟩, hg₁, hg⟩ := bind_eq_ok_iff.1 hg
    obtain ⟨-, rfl⟩ := Prod.mk.inj (Except.ok.inj hg)
    obtain ⟨start, -, ⟨-, -, rfl⟩ | ⟨-, -, ws, -, rfl⟩⟩ := endChain_eq_ok hg₁
    · exact ⟨rfl, (List.append_nil _).symm⟩
    · exact ⟨rfl, (List.append_nil _).symm⟩
  | deleted gone =>
    obtain ⟨g₁, hg₁, hg⟩ := bind_eq_ok_iff.1 hg
    obtain ⟨-, rfl⟩ := Prod.mk.inj (Except.ok.inj hg)
    obtain ⟨-, rfl⟩ := deleted_eq_ok hg₁
    exact ⟨rfl, (List.append_nil _).symm⟩

/-- Until the next chain is begun, the start stays and the steps add up, also beyond an end. -/
theorem performAll_start (hcs : ∀ c ∈ cs, ¬ c.begins) (hg : g.performAll cs = .ok (rs, g')) :
    g'.start = g.start ∧ g'.steps.toList = g.steps.toList ++ cs.filterMap Call.step := by
  induction cs generalizing g rs with
  | nil =>
    obtain ⟨-, rfl⟩ := Prod.mk.inj (Except.ok.inj hg)
    exact ⟨rfl, (List.append_nil _).symm⟩
  | cons c cs ih =>
    obtain ⟨⟨r, g₁⟩, hg₁, hg⟩ := bind_eq_ok_iff.1 hg
    obtain ⟨⟨rs', g₂⟩, hg₂, hg⟩ := bind_eq_ok_iff.1 hg
    obtain ⟨-, rfl⟩ := Prod.mk.inj (Except.ok.inj hg)
    obtain ⟨hc, hcs⟩ := List.forall_mem_cons.1 hcs
    obtain ⟨hstart, hsteps⟩ := perform_start hc hg₁
    obtain ⟨hstart', hsteps'⟩ := ih hcs hg₂
    refine ⟨hstart'.trans hstart, ?_⟩
    rw [hsteps', hsteps, List.append_assoc]
    cases hstep : c.step with
    | none => rw [List.filterMap_cons_none hstep, Option.toList_none, List.nil_append]
    | some s => rw [List.filterMap_cons_some hstep, Option.toList_some, List.singleton_append]

/-- The start is set as soon as a chain is begun, and stays set. -/
theorem isSome_start (hg : g.performAll cs = .ok (rs, g')) :
    g'.start.isSome ↔ g.start.isSome ∨ Begun cs := by
  induction cs generalizing g rs with
  | nil =>
    obtain ⟨-, rfl⟩ := Prod.mk.inj (Except.ok.inj hg)
    simp [Begun]
  | cons c cs ih =>
    obtain ⟨⟨r, g₁⟩, hg₁, hg⟩ := bind_eq_ok_iff.1 hg
    obtain ⟨⟨rs', g₂⟩, hg₂, hg⟩ := bind_eq_ok_iff.1 hg
    obtain ⟨-, rfl⟩ := Prod.mk.inj (Except.ok.inj hg)
    have hfirst : g₁.start.isSome ↔ g.start.isSome ∨ c.begins := by
      by_cases hc : c.begins
      · cases c with
        | beginChain start =>
          obtain ⟨-, rfl⟩ := Prod.mk.inj (Except.ok.inj hg₁)
          simp [beginChain, Call.begins]
        | root _ => exact absurd hc (by simp [Call.begins])
        | resolve _ _ => exact absurd hc (by simp [Call.begins])
        | endChain => exact absurd hc (by simp [Call.begins])
        | deleted _ => exact absurd hc (by simp [Call.begins])
      · rw [(perform_start hc hg₁).1]
        simp [hc]
    rw [ih hg₂, hfirst, or_assoc]
    simp [Begun]

/-! ## Accepted and rejected calls -/

theorem resolve_rejected (h : g.start = none) (next : ClauseId) (v : Var) :
    g.resolve next v = .error .resolveOutsideChain := by
  unfold Log.resolve
  rw [h]
  rfl

theorem endChain_rejected (h : g.start = none) : g.endChain = .error .assertionFailed := by
  unfold endChain
  rw [h]

theorem resolve_accepted (h : g.start.isSome) (next : ClauseId) (v : Var) :
    g.resolve next v = .ok { g with steps := g.steps.push (v, next) } :=
  bind_eq_ok_iff.2 ⟨(), require_eq_ok_iff.2 h, rfl⟩

/-- A chain is ended unless it is to be written and a clause that it uses has no number yet. -/
theorem endChain_succeeds_iff (h : g.start = some start) : (∃ x, g.endChain = .ok x) ↔
    g.steps.toList = [] ∨ (start ≤ g.nextId ∧ ∀ s ∈ g.steps.toList, s.2 ≤ g.nextId) := by
  by_cases hnil : g.steps.toList = []
  · exact iff_of_true ⟨_, endChain_of_nil h hnil⟩ (Or.inl hnil)
  rw [or_iff_right hnil]
  constructor
  · rintro ⟨⟨id, g'⟩, hg⟩
    obtain ⟨start', hstart, ⟨hnil', -, -⟩ | ⟨-, -, ws, hws, -⟩⟩ := endChain_eq_ok hg
    · exact absurd hnil' hnil
    · obtain rfl : start = start' := Option.some.inj (h.symm.trans hstart)
      exact (chainWords_eq_ok hws).2
  · rintro ⟨hle, hall⟩
    obtain ⟨ws, hws⟩ := Event.chainWords_succeeds hle hall
    exact ⟨_, endChain_of_ne_nil h hnil hws⟩

/-! ## The records of a chain -/

theorem countP_record (hc : g.start.isSome) :
    (g.record c).countP isChain = if c.ends ∧ g.steps.toList ≠ [] then 1 else 0 := by
  obtain ⟨start, hstart⟩ := Option.isSome_iff_exists.1 hc
  cases c with
  | endChain =>
    by_cases hnil : g.steps.toList = []
    · rw [record_endChain_of_nil hnil, if_neg fun h => h.2 hnil]
      rfl
    · rw [record_endChain_of_ne_nil hstart hnil, if_pos ⟨rfl, hnil⟩]
      rfl
  | root ls => simp [record, isChain, Call.ends]
  | beginChain start => simp [record, Call.ends]
  | resolve next v => simp [record, Call.ends]
  | deleted gone => simp [record, isChain, Call.ends]

/-- Once a chain has a step, every end writes it. -/
theorem countP_recordAll (hstart : g.start.isSome) (hsteps : g.steps.toList ≠ [])
    (hcs : ∀ c ∈ cs, ¬ c.begins) (hg : g.performAll cs = .ok (rs, g')) :
    (g.recordAll cs).countP isChain = cs.countP Call.ends := by
  induction cs generalizing g rs with
  | nil => rfl
  | cons c cs ih =>
    obtain ⟨⟨r, g₁⟩, hg₁, hg⟩ := bind_eq_ok_iff.1 hg
    obtain ⟨⟨rs', g₂⟩, hg₂, hg⟩ := bind_eq_ok_iff.1 hg
    obtain ⟨-, rfl⟩ := Prod.mk.inj (Except.ok.inj hg)
    obtain ⟨hc, hcs⟩ := List.forall_mem_cons.1 hcs
    obtain ⟨hstart₁, hsteps₁⟩ := perform_start hc hg₁
    have hrest := ih (hstart₁ ▸ hstart) (by simp [hsteps₁, hsteps]) hcs hg₂
    rw [recordAll_cons hg₁, List.countP_append, countP_record hstart, hrest, List.countP_cons,
      Nat.add_comm]
    simp [hsteps]

/-- A chain is written once for every end after its first step. -/
theorem countP_recordAll_begun (hstart : g.start.isSome) (hsteps : g.steps.toList = [])
    (hcs : ∀ c ∈ cs, ¬ c.begins) (hg : g.performAll cs = .ok (rs, g')) :
    (g.recordAll cs).countP isChain = (fromFirstStep cs).countP Call.ends := by
  induction cs generalizing g rs with
  | nil => rfl
  | cons c cs ih =>
    obtain ⟨⟨r, g₁⟩, hg₁, hg⟩ := bind_eq_ok_iff.1 hg
    obtain ⟨⟨rs', g₂⟩, hg₂, hg⟩ := bind_eq_ok_iff.1 hg
    obtain ⟨-, rfl⟩ := Prod.mk.inj (Except.ok.inj hg)
    obtain ⟨hc, hcs⟩ := List.forall_mem_cons.1 hcs
    obtain ⟨hstart₁, hsteps₁⟩ := perform_start hc hg₁
    rw [hsteps, List.nil_append] at hsteps₁
    have hnone : (g.record c).countP isChain = 0 := by
      rw [countP_record hstart, if_neg fun h => h.2 hsteps]
    rw [recordAll_cons hg₁, List.countP_append, hnone, Nat.zero_add]
    cases hstep : c.step with
    | none =>
      rw [hstep, Option.toList_none] at hsteps₁
      rw [fromFirstStep, List.dropWhile_cons_of_pos (by simp [hstep])]
      exact ih (hstart₁ ▸ hstart) hsteps₁ hcs hg₂
    | some s =>
      have hends : ¬ c.ends := by
        cases c <;> simp [Call.step, Call.ends] at hstep ⊢
      rw [fromFirstStep, List.dropWhile_cons_of_neg (by simp [hstep]), List.countP_cons_of_neg hends]
      exact countP_recordAll (hstart₁ ▸ hstart) (by simp [hsteps₁, hstep]) hcs hg₂

/-! ## All calls -/

/-- What is written when the last chain that was begun is ended. -/
theorem endChain_words {steps : List ResolutionStep} {id : ClauseId} (hstart : g.start = some start)
    (hsteps : g.steps.toList = steps) (hg : g.endChain = .ok (id, g')) :
    g'.words.toList = g.words.toList ++
      if steps = [] then [] else Event.words g.nextId (.chain g.nextId start steps) := by
  have hperform : g.perform .endChain = .ok (some id, g') := bind_eq_ok_iff.2 ⟨_, hg, rfl⟩
  rw [(perform_words hperform).1]
  split
  · next hnil => rw [record_endChain_of_nil (hsteps.trans hnil), Event.wordsFrom]
  · next hne =>
    rw [record_endChain_of_ne_nil hstart (hsteps ▸ hne), hsteps, Event.wordsFrom, Event.wordsFrom,
      List.append_nil]

theorem not_opened_concat : ¬ Opened (cs ++ [.endChain]) := by
  rintro ⟨pre, start, rest, heq, hrest⟩
  have hlast := congrArg List.getLast? heq
  rw [List.getLast?_concat, List.getLast?_append, List.getLast?_cons, Option.some_or] at hlast
  cases hmore : rest.getLast? with
  | none => simp [hmore] at hlast
  | some c =>
    obtain rfl : .endChain = c := by simpa [hmore] using hlast
    exact hrest _ (List.mem_of_getLast? hmore) rfl

/-- Calls that extend or end a chain are rejected before the first chain is begun and at no other
time for want of a chain, so they are confined to open chains exactly if no chain that was begun has
been ended. The last chain that was begun can be ended unless it refers to clauses without numbers,
and this writes all the steps since it was begun, across the ends in between; it has been written once
for every end since its first step. -/
theorem bracketing_of_calls (hg : Log.performAll {} cs = .ok (rs, g)) :
    (¬ Begun cs → (∀ next v, g.resolve next v = .error .resolveOutsideChain) ∧
      g.endChain = .error .assertionFailed) ∧
    (Begun cs → ∀ next v, ∃ g', g.resolve next v = .ok g' ∧ g'.words = g.words) ∧
    ((∀ next v, (∃ g', g.resolve next v = .ok g') → Opened cs) ↔ (Begun cs → Opened cs)) ∧
    ∀ pre start rest, cs = pre ++ .beginChain start :: rest → (∀ c ∈ rest, ¬ c.begins) →
      ((∃ x, g.endChain = .ok x) ↔ rest.filterMap Call.step = [] ∨
        (start ≤ g.nextId ∧ ∀ s ∈ rest.filterMap Call.step, s.2 ≤ g.nextId)) ∧
      (∀ id g', g.endChain = .ok (id, g') → g'.words.toList = g.words.toList ++
        if rest.filterMap Call.step = [] then []
        else Event.words g.nextId (.chain g.nextId start (rest.filterMap Call.step))) ∧
      ∃ rs₀ g₀ es ds, Log.performAll {} pre = .ok (rs₀, g₀) ∧
        g₀.words.toList = Event.wordsFrom 0 es ∧ g.words.toList = Event.wordsFrom 0 (es ++ ds) ∧
        ds.countP isChain = (fromFirstStep rest).countP Call.ends := by
  have hbegun : g.start.isSome ↔ Begun cs := by simpa using isSome_start hg
  have haccepted : Begun cs → ∀ next v, ∃ g', g.resolve next v = .ok g' ∧ g'.words = g.words :=
    fun h next v => ⟨_, resolve_accepted (hbegun.2 h) next v, rfl⟩
  have hrejected : ¬ Begun cs → g.start = none := fun h =>
    Option.not_isSome_iff_eq_none.1 fun hsome => h (hbegun.1 hsome)
  refine ⟨fun h => ⟨resolve_rejected (hrejected h), endChain_rejected (hrejected h)⟩, haccepted,
    ⟨fun h hb => ?_, fun h next v => ?_⟩, ?_⟩
  · obtain ⟨g', hg', -⟩ := haccepted hb 0 ⟨0⟩
    exact h 0 ⟨0⟩ ⟨g', hg'⟩
  · rintro ⟨g', hg'⟩
    exact h (hbegun.1 (resolve_eq_ok hg').1)
  · rintro pre start rest rfl hrest
    obtain ⟨rs₀, rs₁, g₀, hpre, hchain, -, hrecords⟩ := performAll_append hg
    obtain ⟨⟨r, g₁⟩, hg₁, hchain⟩ := bind_eq_ok_iff.1 hchain
    obtain ⟨⟨rs₂, g₂⟩, hrest₁, hchain⟩ := bind_eq_ok_iff.1 hchain
    obtain ⟨-, rfl⟩ := Prod.mk.inj (Except.ok.inj hchain)
    obtain ⟨-, rfl⟩ := Prod.mk.inj (Except.ok.inj hg₁)
    obtain ⟨hstart, hsteps⟩ := performAll_start hrest hrest₁
    replace hstart : g₂.start = some start := hstart
    replace hsteps : g₂.steps.toList = rest.filterMap Call.step := hsteps
    refine ⟨?_, fun id g' => endChain_words hstart hsteps,
      rs₀, g₀, recordAll {} pre, (g₀.beginChain start).recordAll rest, hpre, (words_of_calls hpre).1,
      ?_, countP_recordAll_begun rfl rfl hrest hrest₁⟩
    · rw [endChain_succeeds_iff hstart, hsteps]
    · rw [(words_of_calls hg).1, hrecords, recordAll_cons hg₁]
      rfl

/-- A root, a deletion and a second start leave a chain with one record. -/
theorem bracketing_of_calls_one_chain :
    let cs : List Call := [.root [⟨⟨1⟩, false⟩], .root [⟨⟨1⟩, true⟩], .beginChain 1, .beginChain 0,
      .deleted 1, .resolve 1 ⟨1⟩, .endChain]
    ∃ rs g, Log.performAll {} cs = .ok (rs, g) ∧ Begun cs ∧ ∃ rs₀ g₀ es ds,
      Log.performAll {} (cs.take 3) = .ok (rs₀, g₀) ∧ g₀.words.toList = Event.wordsFrom 0 es ∧
      g.words.toList = Event.wordsFrom 0 (es ++ ds) ∧ ds.countP isChain = 1 := by
  intro cs
  have hcs : ∃ rs g, Log.performAll {} cs = .ok (rs, g) := ⟨_, _, rfl⟩
  obtain ⟨rs, g, hg⟩ := hcs
  refine ⟨rs, g, hg, ⟨.beginChain 0, by simp [cs], rfl⟩, ?_⟩
  refine ((bracketing_of_calls hg).2.2.2 (cs.take 3) 0 _ rfl ?_).2.2
  simp [Call.begins]

/-- One chain is begun and ended. It can then be extended, and ending it again writes it again. -/
theorem bracketing_broken : ∃ cs rs g, Log.performAll {} cs = .ok (rs, g) ∧ ¬ Opened cs ∧
    cs.countP Call.begins = 1 ∧ (∃ g', g.resolve 1 ⟨1⟩ = .ok g') ∧
    ∃ id g', g.endChain = .ok (id, g') ∧
      g.events = .ok [.root 0 [⟨⟨1⟩, false⟩, ⟨⟨2⟩, false⟩], .root 1 [⟨⟨1⟩, true⟩, ⟨⟨2⟩, false⟩],
        .chain 2 0 [(⟨1⟩, 1)]] ∧
      g'.events = .ok [.root 0 [⟨⟨1⟩, false⟩, ⟨⟨2⟩, false⟩], .root 1 [⟨⟨1⟩, true⟩, ⟨⟨2⟩, false⟩],
        .chain 2 0 [(⟨1⟩, 1)], .chain 3 0 [(⟨1⟩, 1)]] := by
  let cs : List Call := [.root [⟨⟨1⟩, false⟩, ⟨⟨2⟩, false⟩], .root [⟨⟨1⟩, true⟩, ⟨⟨2⟩, false⟩],
    .beginChain 0, .resolve 1 ⟨1⟩]
  exact ⟨cs ++ [.endChain], _, _, rfl, not_opened_concat, rfl, ⟨_, rfl⟩, _, _, rfl, rfl, rfl⟩

end Cdcl.Log
