import Cdcl.Proofs.Resolution.Recording
import Cdcl.Resolution.Replay

/-!
# Logs are read back as they were written

A `Draft` is what the calls made so far tell of a log apart from its words: the next clause number and
the chain that is open. `Draft.reply` says what a call is to answer and which event it is to record,
and `Draft.Admits` which calls may be made. Admitted calls have the answers that are due, and reading
the words gives the events that are due, in order, whatever the lengths of the records
(`events_of_calls`).
-/

namespace Cdcl.Log
set_option autoImplicit false

/-- A log apart from its words. -/
structure Draft where
  next : ClauseId := 0
  /-- The clause from which the open chain starts, and its steps. -/
  chain : Option (ClauseId × List ResolutionStep) := none

namespace Draft

/-- Whether a call may be made: literals fit the words of a log, only an open chain is extended and
ended, and it ends over clauses that have their numbers, as has a clause that is deleted. -/
def Admits (d : Draft) : Call → Prop
  | .root literals => ∀ l ∈ literals, Event.LiteralFits l
  | .beginChain _ => True
  | .resolve _ v => d.chain.isSome ∧ v.id ≠ 0
  | .endChain =>
    match d.chain with
    | some (start, steps) => start < d.next ∧ ∀ s ∈ steps, s.2 < d.next
    | none => False
  | .deleted gone => gone < d.next

instance decidableAdmits (d : Draft) : (c : Call) → Decidable (d.Admits c)
  | .root literals =>
    inferInstanceAs (Decidable (∀ l ∈ literals, 1 ≤ l.var.id ∧ l.var.id < Event.varLimit))
  | .beginChain _ => isTrue trivial
  | .resolve _ v => inferInstanceAs (Decidable (d.chain.isSome ∧ v.id ≠ 0))
  | .endChain =>
    match h : d.chain with
    | some (start, steps) => decidable_of_iff (start < d.next ∧ ∀ s ∈ steps, s.2 < d.next)
        (by unfold Admits; rw [h])
    | none => isFalse (by unfold Admits; rw [h]; exact id)
  | .deleted gone => inferInstanceAs (Decidable (gone < d.next))

theorem exists_chain_of_admits {d : Draft} (h : d.Admits .endChain) :
    ∃ start steps, d.chain = some (start, steps) ∧ start < d.next ∧ ∀ s ∈ steps, s.2 < d.next := by
  cases hchain : d.chain with
  | none => simp [Admits, hchain] at h
  | some c =>
    rw [Admits, hchain] at h
    exact ⟨c.1, c.2, rfl, h⟩

/-- The answer to a call, and the event that it records. -/
def reply (d : Draft) : Call → Option ClauseId × Option Event
  | .root literals => (some d.next, some (.root d.next (Literal.canonical literals)))
  | .beginChain _ => (none, none)
  | .resolve _ _ => (none, none)
  | .endChain =>
    match d.chain with
    | some (start, []) => (some start, none)
    | some (start, s :: steps) => (some d.next, some (.chain d.next start (s :: steps)))
    | none => (none, none)
  | .deleted gone => (none, some (.deleted gone))

def call (d : Draft) : Call → Draft
  | .root _ => { d with next := d.next + 1 }
  | .beginChain start => { d with chain := some (start, []) }
  | .resolve next v => { d with chain := d.chain.map fun c => (c.1, c.2 ++ [(v, next)]) }
  | .endChain =>
    match d.chain with
    | some (_, _ :: _) => ⟨d.next + 1, none⟩
    | _ => { d with chain := none }
  | .deleted _ => d

def AdmitsAll (d : Draft) : List Call → Prop
  | [] => True
  | c :: cs => d.Admits c ∧ (d.call c).AdmitsAll cs

instance decidableAdmitsAll (d : Draft) : (cs : List Call) → Decidable (d.AdmitsAll cs)
  | [] => isTrue trivial
  | c :: cs =>
    have := decidableAdmitsAll (d.call c) cs
    inferInstanceAs (Decidable (d.Admits c ∧ (d.call c).AdmitsAll cs))

def replies (d : Draft) : List Call → List (Option ClauseId × Option Event)
  | [] => []
  | c :: cs => d.reply c :: (d.call c).replies cs

def calls (d : Draft) : List Call → Draft := List.foldl call d

def events (d : Draft) (cs : List Call) : List Event := (d.replies cs).filterMap Prod.snd

end Draft

def performAll (g : Log) : List Call → Except Fault (List (Option ClauseId) × Log)
  | [] => .ok ([], g)
  | c :: cs => do
    let (r, g) ← g.perform c
    let (rs, g) ← g.performAll cs
    .ok (r :: rs, g)

/-- A log that has recorded the events so far and is at the stage of a draft. -/
structure Follows (g : Log) (d : Draft) (es : List Event) : Prop where
  records : g.Records es
  next : g.nextId = d.next
  chain : ∀ start steps, d.chain = some (start, steps) →
    g.start = some start ∧ g.steps.toList = steps

variable {g : Log} {d : Draft} {es : List Event} {c : Call} {cs : List Call}

theorem endChain_of_nil {start : ClauseId} (hstart : g.start = some start)
    (hsteps : g.steps.toList = []) : g.endChain = .ok (start, g) := by
  unfold Log.endChain
  rw [hstart]
  exact if_pos (by rw [← Array.isEmpty_toList, hsteps]; rfl)

theorem endChain_of_ne_nil {start : ClauseId} {ws : List Nat} (hstart : g.start = some start)
    (hsteps : g.steps.toList ≠ [])
    (hws : Event.chainWords g.nextId start g.steps.toList = .ok ws) : g.endChain =
      .ok (g.nextId, { g with words := g.words ++ ws, nextId := g.nextId + 1 }) := by
  have hopen : ¬ g.steps.isEmpty = true := by
    rw [← Array.isEmpty_toList]
    simpa using hsteps
  unfold Log.endChain
  rw [hstart]
  exact (if_neg hopen).trans (bind_eq_ok_iff.2 ⟨ws, hws, rfl⟩)

theorem Follows.empty : Follows {} {} [] := ⟨.empty, rfl, by simp⟩

/-- Only a chain with steps takes a number and is recorded. -/
theorem Follows.endChain (h : g.Follows d es) (hc : d.Admits .endChain) :
    ∃ g', g.perform .endChain = .ok ((d.reply .endChain).1, g') ∧
      g'.Follows (d.call .endChain) (es ++ (d.reply .endChain).2.toList) := by
  obtain ⟨start, steps, hchain, hlt, hall⟩ := Draft.exists_chain_of_admits hc
  obtain ⟨hstart, hsteps⟩ := h.chain start steps hchain
  unfold Draft.reply Draft.call
  rw [hchain]
  cases steps with
  | nil =>
    refine ⟨g, bind_eq_ok_iff.2 ⟨_, endChain_of_nil hstart hsteps, rfl⟩, ?_, h.next, by simp⟩
    rw [Option.toList_none, List.append_nil]
    exact h.records
  | cons s steps =>
    have hne : g.steps.toList ≠ [] := by simp [hsteps]
    obtain ⟨ws, hws⟩ : ∃ ws, Event.chainWords g.nextId start g.steps.toList = .ok ws := by
      rw [hsteps, h.next]
      exact Event.chainWords_succeeds (Nat.le_of_lt hlt) fun s hs => Nat.le_of_lt (hall s hs)
    have hrecords := h.records.chain hne hws
    rw [hsteps] at hrecords
    rw [← h.next]
    exact ⟨_, bind_eq_ok_iff.2 ⟨_, endChain_of_ne_nil hstart hne hws, rfl⟩, hrecords, rfl, by simp⟩

/-- An admitted call has the answer that is due and records the event that is due. -/
theorem Follows.perform (h : g.Follows d es) (hc : d.Admits c) :
    ∃ g', g.perform c = .ok ((d.reply c).1, g') ∧
      g'.Follows (d.call c) (es ++ (d.reply c).2.toList) := by
  cases c with
  | root ls =>
    refine ⟨(g.addRoot ls).2, ?_, ?_⟩
    · rw [Draft.reply, ← h.next]
      rfl
    · refine ⟨?_, congrArg Nat.succ h.next, h.chain⟩
      rw [Draft.reply, ← h.next]
      exact h.records.addRoot hc
  | beginChain start =>
    refine ⟨g.beginChain start, rfl, ?_, h.next, fun first steps heq => ?_⟩
    · rw [Draft.reply, Option.toList_none, List.append_nil]
      exact h.records.beginChain start
    · obtain ⟨rfl, rfl⟩ := Prod.mk.inj (Option.some.inj heq)
      exact ⟨rfl, rfl⟩
  | resolve next v =>
    obtain ⟨hopen, hv⟩ := hc
    obtain ⟨⟨start, steps⟩, hchain⟩ := Option.isSome_iff_exists.1 hopen
    obtain ⟨hstart, hsteps⟩ := h.chain start steps hchain
    have hresolve : g.resolve next v = .ok { g with steps := g.steps.push (v, next) } :=
      bind_eq_ok_iff.2 ⟨(), require_eq_ok_iff.2 (by rw [hstart]; rfl), rfl⟩
    refine ⟨_, bind_eq_ok_iff.2 ⟨_, hresolve, rfl⟩, ?_, h.next, fun first more heq => ?_⟩
    · rw [Draft.reply, Option.toList_none, List.append_nil]
      exact h.records.resolve hv hresolve
    · rw [Draft.call, hchain] at heq
      obtain ⟨rfl, rfl⟩ := Prod.mk.inj (Option.some.inj heq)
      exact ⟨hstart, by rw [Array.toList_push, hsteps]⟩
  | endChain => exact h.endChain hc
  | deleted gone =>
    have hgone : gone < g.nextId := h.next ▸ hc
    have hdeleted : g.deleted gone =
        .ok { g with words := g.words ++ Event.deletionWords g.nextId gone } :=
      bind_eq_ok_iff.2 ⟨(), require_eq_ok_iff.2 (by simpa using hgone), rfl⟩
    exact ⟨_, bind_eq_ok_iff.2 ⟨_, hdeleted, rfl⟩, h.records.deleted hdeleted, h.next, h.chain⟩

theorem Follows.performAll (h : g.Follows d es) (hcs : d.AdmitsAll cs) :
    ∃ g', g.performAll cs = .ok ((d.replies cs).map Prod.fst, g') ∧
      g'.Follows (d.calls cs) (es ++ d.events cs) := by
  induction cs generalizing g d es with
  | nil => exact ⟨g, rfl, by rwa [show d.events [] = [] from rfl, List.append_nil]⟩
  | cons c cs ih =>
    obtain ⟨g₁, hg₁, h₁⟩ := h.perform hcs.1
    obtain ⟨g', hg', h'⟩ := ih h₁ hcs.2
    refine ⟨g', bind_eq_ok_iff.2 ⟨_, hg₁, bind_eq_ok_iff.2 ⟨_, hg', rfl⟩⟩, ?_⟩
    have hevents : d.events (c :: cs) = (d.reply c).2.toList ++ (d.call c).events cs := by
      unfold Draft.events
      rw [Draft.replies, List.filterMap_cons]
      cases (d.reply c).2 <;> rfl
    rw [hevents, ← List.append_assoc]
    exact h'

/-- Events that fit one after the other take the numbers from the first one on. -/
theorem recorded_of_fitFrom {next : ClauseId} (h : Event.FitFrom next es) :
    next + (es.filterMap recorded).length = Event.endFrom next es ∧
      es.filterMap recorded = List.range' next (es.filterMap recorded).length := by
  induction es generalizing next with
  | nil => exact ⟨rfl, rfl⟩
  | cons e es ih =>
    obtain ⟨hend, hids⟩ := ih h.2
    cases e with
    | root id ls =>
      obtain rfl : id = next := h.1.1
      change id + (List.length (_ :: _)) = _ ∧ id :: _ = List.range' id (List.length (_ :: _))
      rw [List.length_cons, List.range'_succ]
      exact ⟨(Nat.add_right_comm _ _ _).symm.trans hend, congrArg (id :: ·) hids⟩
    | chain id start steps =>
      obtain rfl : id = next := h.1.1
      change id + (List.length (_ :: _)) = _ ∧ id :: _ = List.range' id (List.length (_ :: _))
      rw [List.length_cons, List.range'_succ]
      exact ⟨(Nat.add_right_comm _ _ _).symm.trans hend, congrArg (id :: ·) hids⟩
    | deleted gone => exact ⟨hend, hids⟩

/-- Admitted calls have the answers that are due. As long as fewer than 2³¹ clauses have numbers, the
words of the log are read back as the events that are due, and these take the numbers from 0 on. The
literals of a root ascend strictly and are those that were given. -/
theorem events_of_calls (hcs : Draft.AdmitsAll {} cs)
    (hids : (Draft.calls {} cs).next < Event.distanceLimit) :
    ∃ g, performAll {} cs = .ok ((Draft.replies {} cs).map Prod.fst, g) ∧
      g.events = .ok (Draft.events {} cs) ∧
      (Draft.events {} cs).filterMap recorded = List.range (Draft.calls {} cs).next ∧
      ∀ ls, .root ls ∈ cs → Literal.Ascending (Literal.canonical ls) ∧
        ∀ l, l ∈ Literal.canonical ls ↔ l ∈ ls := by
  obtain ⟨g, hg, h⟩ := Follows.empty.performAll hcs
  rw [List.nil_append] at h
  obtain ⟨hend, hnumbers⟩ := recorded_of_fitFrom h.records.fits
  have hnext : Event.endFrom 0 (Draft.events {} cs) = (Draft.calls {} cs).next :=
    h.records.next.symm.trans h.next
  refine ⟨g, hg, ?_, ?_, fun ls _ =>
    ⟨Literal.ascending_canonical ls, fun _ => Literal.mem_canonical⟩⟩
  · unfold Log.events
    rw [h.records.decode_eq (h.next ▸ hids)]
  · rw [hnumbers, ← hnext, ← hend, Nat.zero_add, List.range_eq_range']

/-- Records of every kind, a deletion and a root within an open chain, and a chain without steps. -/
theorem events_of_calls_mixed :
    let cs : List Call := [.root [⟨⟨2⟩, true⟩, ⟨⟨1⟩, false⟩, ⟨⟨2⟩, true⟩], .root [], .beginChain 0,
      .deleted 1, .root [⟨⟨2⟩, false⟩, ⟨⟨2⟩, true⟩], .resolve 2 ⟨2⟩, .endChain, .beginChain 3,
      .endChain]
    Draft.AdmitsAll {} cs ∧ (Draft.calls {} cs).next < Event.distanceLimit ∧
    ∃ g, performAll {} cs =
        .ok ([some 0, some 1, none, none, some 2, none, some 3, none, some 3], g) ∧
      g.events = .ok [.root 0 [⟨⟨1⟩, false⟩, ⟨⟨2⟩, true⟩], .root 1 [], .deleted 1,
        .root 2 [⟨⟨2⟩, false⟩, ⟨⟨2⟩, true⟩], .chain 3 0 [(⟨2⟩, 2)]] := by
  intro cs
  have hcs : Draft.AdmitsAll {} cs := by decide
  have hids : (Draft.calls {} cs).next < Event.distanceLimit := by decide
  obtain ⟨g, hg, hevents, -⟩ := events_of_calls hcs hids
  exact ⟨hcs, hids, g, hg, hevents⟩

end Cdcl.Log
