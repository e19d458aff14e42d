import Cdcl.Proofs.Resolution.Reading
import Cdcl.Resolution.Log

/-!
# What a log records

`Log.Call` lists the calls that change a log, and `Log.Run` the logs that they lead to, together
with the calls and their answers. `Log.Records` says that the words of a log are those of a list of
events; every call keeps it, and adds the event it records if it records one (`Run.records`).
-/

namespace Cdcl
set_option autoImplicit false

namespace Event

variable {id start : ClauseId} {steps : List ResolutionStep}

theorem distance_succeeds {target : ClauseId} (h : target ≤ id) :
    distance id target = .ok (id - target) := if_pos h

theorem stepWords_succeeds (h : ∀ s ∈ steps, s.2 ≤ id) : ∃ words, stepWords id steps = .ok words := by
  induction steps with
  | nil => exact ⟨[], rfl⟩
  | cons s steps ih =>
    obtain ⟨hs, h⟩ := List.forall_mem_cons.1 h
    obtain ⟨words, hwords⟩ := ih h
    exact ⟨_, bind_eq_ok_iff.2 ⟨_, distance_succeeds hs, bind_eq_ok_iff.2 ⟨words, hwords, rfl⟩⟩⟩

theorem chainWords_succeeds (hstart : start ≤ id) (hsteps : ∀ s ∈ steps, s.2 ≤ id) :
    ∃ words, chainWords id start steps = .ok words := by
  obtain ⟨words, hwords⟩ := stepWords_succeeds hsteps
  exact ⟨_, bind_eq_ok_iff.2 ⟨_, distance_succeeds hstart, bind_eq_ok_iff.2 ⟨words, hwords, rfl⟩⟩⟩

end Event

namespace Log

/-- The words of a log are those of the events, in order. -/
structure Records (g : Log) (es : List Event) : Prop where
  words : g.words.toList = Event.wordsFrom 0 es
  fits : Event.FitFrom 0 es
  next : g.nextId = Event.endFrom 0 es
  steps : ∀ s ∈ g.steps.toList, s.1.id ≠ 0

theorem Records.empty : Records {} [] := ⟨rfl, trivial, rfl, by simp⟩

theorem Records.decode {g : Log} {es : List Event} (h : g.Records es) :
    g.decode = (Event.heardFrom 0 es, none) := by
  rw [Log.decode, h.words, Event.decode_wordsFrom h.fits]

/-- As long as distances fit a word, the events are read back as they were recorded. -/
theorem Records.decode_eq {g : Log} {es : List Event} (h : g.Records es)
    (hnext : g.nextId < Event.distanceLimit) : g.decode = (es, none) := by
  rw [h.decode, Event.heardFrom_eq_self h.fits (h.next ▸ hnext)]

/-! ## One record -/

section Recording
variable {g g' : Log} {es : List Event} {id : ClauseId}

theorem Records.addRoot {ls : List Literal} (h : g.Records es)
    (hfit : ∀ l ∈ ls, Event.LiteralFits l) :
    (g.addRoot ls).2.Records (es ++ [.root g.nextId (Literal.canonical ls)]) := by
  refine ⟨?_, ?_, ?_, h.steps⟩
  · rw [Event.wordsFrom_concat, ← h.words]
    simp [Log.addRoot, Event.words]
  · refine Event.fitFrom_concat.2 ⟨h.fits, h.next, Literal.ascending_canonical ls, fun l hl => ?_⟩
    exact hfit l (Literal.mem_canonical.1 hl)
  · rw [Event.endFrom_concat, ← h.next]
    rfl

theorem Records.beginChain (h : g.Records es) (start : ClauseId) :
    (g.beginChain start).Records es := ⟨h.words, h.fits, h.next, by simp [Log.beginChain]⟩

theorem resolve_eq_ok {next : ClauseId} {v : Var} (h : g.resolve next v = .ok g') :
    g.start.isSome ∧ g' = { g with steps := g.steps.push (v, next) } := by
  obtain ⟨_, hreq, hg⟩ := bind_eq_ok_iff.1 h
  exact ⟨require_eq_ok_iff.1 hreq, by simpa using hg.symm⟩

theorem Records.resolve {next : ClauseId} {v : Var} (h : g.Records es) (hv : v.id ≠ 0)
    (hg : g.resolve next v = .ok g') : g'.Records es := by
  obtain ⟨-, rfl⟩ := resolve_eq_ok hg
  refine ⟨h.words, h.fits, h.next, fun s hs => ?_⟩
  rcases List.mem_append.1 (Array.toList_push ▸ hs) with hs | hs
  · exact h.steps s hs
  · rw [List.mem_singleton.1 hs]
    exact hv

theorem stepWords_eq_ok {steps : List ResolutionStep} {ws : List Nat}
    (h : Event.stepWords id steps = .ok ws) :
    ws = Event.stepPairs id steps ∧ ∀ s ∈ steps, s.2 ≤ id := by
  induction steps generalizing ws with
  | nil =>
    obtain rfl : [] = ws := by simpa [Event.stepWords] using h
    exact ⟨rfl, by simp⟩
  | cons s steps ih =>
    obtain ⟨v, next⟩ := s
    obtain ⟨back, hback, h⟩ := bind_eq_ok_iff.1 h
    obtain ⟨rest, hrest, h⟩ := bind_eq_ok_iff.1 h
    obtain ⟨rfl, hle⟩ := ih hrest
    unfold Event.distance at hback
    split at hback
    · next hnext =>
      obtain rfl : id - next = back := by simpa using hback
      refine ⟨by simpa [Event.stepPairs] using h.symm, fun s hs => ?_⟩
      rcases List.mem_cons.1 hs with rfl | hs
      · exact hnext
      · exact hle s hs
    · exact absurd hback (by simp)

theorem chainWords_eq_ok {start : ClauseId} {steps : List ResolutionStep} {ws : List Nat}
    (h : Event.chainWords id start steps = .ok ws) :
    ws = Event.words id (.chain id start steps) ∧ start ≤ id ∧ ∀ s ∈ steps, s.2 ≤ id := by
  obtain ⟨back, hback, h⟩ := bind_eq_ok_iff.1 h
  obtain ⟨rest, hrest, h⟩ := bind_eq_ok_iff.1 h
  obtain ⟨rfl, hle⟩ := stepWords_eq_ok hrest
  unfold Event.distance at hback
  split at hback
  · next hstart =>
    obtain rfl : id - start = back := by simpa using hback
    exact ⟨by simpa [Event.words] using h.symm, hstart, hle⟩
  · exact absurd hback (by simp)

/-- Ending a chain either gives back its start and changes nothing, or records a chain under the
next number. -/
theorem endChain_eq_ok (h : g.endChain = .ok (id, g')) : ∃ start, g.start = some start ∧
    ((g.steps.toList = [] ∧ id = start ∧ g' = g) ∨
      (g.steps.toList ≠ [] ∧ id = g.nextId ∧ ∃ ws,
        Event.chainWords g.nextId start g.steps.toList = .ok ws ∧
        g' = { g with words := g.words ++ ws, nextId := g.nextId + 1 })) := by
  unfold endChain at h
  split at h
  · exact absurd h (by simp)
  · next start hstart =>
    refine ⟨start, hstart, ?_⟩
    split at h
    · next hempty =>
      left
      obtain ⟨rfl, rfl⟩ : start = id ∧ g = g' := by simpa using h
      exact ⟨by simpa using hempty, rfl, rfl⟩
    · next hempty =>
      right
      obtain ⟨ws, hws, h⟩ := bind_eq_ok_iff.1 h
      obtain ⟨rfl, rfl⟩ := Prod.mk.inj (Except.ok.inj h)
      exact ⟨by simpa using hempty, rfl, ws, hws, rfl⟩

theorem Records.chain {start : ClauseId} {ws : List Nat} (h : g.Records es)
    (hne : g.steps.toList ≠ [])
    (hws : Event.chainWords g.nextId start g.steps.toList = .ok ws) :
    ({ g with words := g.words ++ ws, nextId := g.nextId + 1 } : Log).Records
      (es ++ [.chain g.nextId start g.steps.toList]) := by
  obtain ⟨rfl, hstart, hle⟩ := chainWords_eq_ok hws
  refine ⟨?_, ?_, ?_, h.steps⟩
  · rw [Event.wordsFrom_concat, ← h.words, ← h.next]
    simp
  · exact Event.fitFrom_concat.2
      ⟨h.fits, h.next, hstart, hne, fun s hs => ⟨h.steps s hs, hle s hs⟩⟩
  · rw [Event.endFrom_concat, ← h.next]
    rfl

theorem deleted_eq_ok {gone : ClauseId} (h : g.deleted gone = .ok g') :
    gone < g.nextId ∧ g' = { g with words := g.words ++ Event.deletionWords g.nextId gone } := by
  obtain ⟨_, hreq, hg⟩ := bind_eq_ok_iff.1 h
  exact ⟨by simpa using require_eq_ok_iff.1 hreq, by simpa using hg.symm⟩

theorem Records.deleted {gone : ClauseId} (h : g.Records es) (hg : g.deleted gone = .ok g') :
    g'.Records (es ++ [.deleted gone]) := by
  obtain ⟨hgone, rfl⟩ := deleted_eq_ok hg
  refine ⟨?_, ?_, ?_, h.steps⟩
  · rw [Event.wordsFrom_concat, ← h.words, ← h.next]
    simp [Event.words]
  · exact Event.fitFrom_concat.2 ⟨h.fits, h.next ▸ hgone⟩
  · rw [Event.endFrom_concat, ← h.next]
    rfl

end Recording

/-! ## Runs -/

/-- A call that changes a log. -/
inductive Call where
  | root (literals : List Literal)
  | beginChain (start : ClauseId)
  | resolve (next : ClauseId) (v : Var)
  | endChain
  | deleted (gone : ClauseId)

/-- Makes a call; the answer is the clause number that it gives, if it gives one. -/
def perform (g : Log) : Call → Except Fault (Option ClauseId × Log)
  | .root literals => .ok (some (g.addRoot literals).1, (g.addRoot literals).2)
  | .beginChain start => .ok (none, g.beginChain start)
  | .resolve next v => do
    let g ← g.resolve next v
    .ok (none, g)
  | .endChain => do
    let (id, g) ← g.endChain
    .ok (some id, g)
  | .deleted gone => do
    let g ← g.deleted gone
    .ok (none, g)

/-- The literals and variables of a call fit the words of a log. -/
def Call.Fits : Call → Prop
  | .root literals => ∀ l ∈ literals, Event.LiteralFits l
  | .resolve _ v => v.id ≠ 0
  | _ => True

/-- The logs that calls lead to, from the empty one on, with the calls and their answers. -/
inductive Run : List (Call × Option ClauseId) → Log → Prop where
  | nil : Run [] {}
  | snoc {h : List (Call × Option ClauseId)} {g g' : Log} {c : Call} {r : Option ClauseId} :
    Run h g → c.Fits → g.perform c = .ok (r, g') → Run (h ++ [(c, r)]) g'

/-- A call adds at most one event; a root is recorded with the number that was given for it. -/
theorem Records.perform {g g' : Log} {es : List Event} {c : Call} {r : Option ClauseId}
    (h : g.Records es) (hc : c.Fits) (hg : g.perform c = .ok (r, g')) :
    ∃ ds, g'.Records (es ++ ds) ∧ ∀ i ms, Event.root i ms ∈ ds →
      ∃ ls, ms = Literal.canonical ls ∧ (c, r) = (.root ls, some i) := by
  cases c with
  | root ls =>
    obtain ⟨rfl, rfl⟩ := Prod.mk.inj (Except.ok.inj hg)
    refine ⟨_, h.addRoot hc, fun i ms hmem => ⟨ls, ?_⟩⟩
    obtain ⟨rfl, rfl⟩ : i = g.nextId ∧ ms = Literal.canonical ls := by simpa using hmem
    exact ⟨rfl, rfl⟩
  | beginChain start =>
    obtain ⟨rfl, rfl⟩ := Prod.mk.inj (Except.ok.inj hg)
    exact ⟨[], by simpa using h.beginChain start, by simp⟩
  | resolve next v =>
    obtain ⟨g₁, hg₁, hg⟩ := bind_eq_ok_iff.1 hg
    obtain ⟨rfl, rfl⟩ := Prod.mk.inj (Except.ok.inj hg)
    exact ⟨[], by simpa using h.resolve hc hg₁, by simp⟩
  | endChain =>
    obtain ⟨⟨id, g₁⟩, hg₁, hg⟩ := bind_eq_ok_iff.1 hg
    obtain ⟨rfl, rfl⟩ := Prod.mk.inj (Except.ok.inj hg)
    obtain ⟨start, -, ⟨-, -, rfl⟩ | ⟨hne, -, ws, hws, rfl⟩⟩ := endChain_eq_ok hg₁
    · exact ⟨[], by simpa using h, by simp⟩
    · exact ⟨_, h.chain hne hws, by simp⟩
  | deleted gone =>
    obtain ⟨g₁, hg₁, hg⟩ := bind_eq_ok_iff.1 hg
    obtain ⟨rfl, rfl⟩ := Prod.mk.inj (Except.ok.inj hg)
    exact ⟨_, h.deleted hg₁, by simp⟩

/-- A run records a list of events whose roots are those that were added. -/
theorem Run.records {h : List (Call × Option ClauseId)} {g : Log} (hr : Run h g) :
    ∃ es, g.Records es ∧ ∀ i ms, Event.root i ms ∈ es →
      ∃ ls, ms = Literal.canonical ls ∧ (.root ls, some i) ∈ h := by
  induction hr with
  | nil => exact ⟨[], Records.empty, by simp⟩
  | @snoc h g g' c r _ hc hg ih =>
    obtain ⟨es, hes, hroots⟩ := ih
    obtain ⟨ds, hds, hnew⟩ := hes.perform hc hg
    refine ⟨es ++ ds, hds, fun i ms hmem => ?_⟩
    rcases List.mem_append.1 hmem with hmem | hmem
    · obtain ⟨ls, hls, hin⟩ := hroots i ms hmem
      exact ⟨ls, hls, List.mem_append_left _ hin⟩
    · obtain ⟨ls, hls, hcr⟩ := hnew i ms hmem
      exact ⟨ls, hls, List.mem_append_right _ (hcr ▸ List.mem_singleton_self _)⟩

end Log
end Cdcl
