import Cdcl.Proofs.Resolution.RoundTrip

/-!
# What calls write

`Log.record` tells which records a call writes in a log, and `Log.recordAll` which records a list of
calls writes. The words that accepted calls append are exactly those of these records, whatever the
variables of the literals and of the steps are (`performAll_words`); so what a log says depends only
on the calls that were made.
-/

namespace Cdcl.Log
set_option autoImplicit false

/-- The records that a call writes if it is accepted. -/
def record (g : Log) : Call → List Event
  | .root literals => [.root g.nextId (Literal.canonical literals)]
  | .endChain =>
    match g.start, g.steps.toList with
    | some start, s :: steps => [.chain g.nextId start (s :: steps)]
    | _, _ => []
  | .deleted gone => [.deleted gone]
  | .beginChain _ | .resolve _ _ => []

/-- The records that calls write, up to the first one that is not accepted. -/
def recordAll (g : Log) : List Call → List Event
  | [] => []
  | c :: cs =>
    match g.perform c with
    | .ok (_, g') => g.record c ++ g'.recordAll cs
    | .error _ => []

variable {g g' g'' : Log} {c : Call} {cs ds : List Call} {r : Option ClauseId}
  {rs : List (Option ClauseId)}

theorem recordAll_cons (hg : g.perform c = .ok (r, g')) :
    g.recordAll (c :: cs) = g.record c ++ g'.recordAll cs := by
  rw [recordAll, hg]

theorem record_endChain_of_nil (h : g.steps.toList = []) : g.record .endChain = [] := by
  unfold record
  rw [h]
  cases g.start <;> rfl

theorem record_endChain_of_ne_nil {start : ClauseId} (hstart : g.start = some start)
    (h : g.steps.toList ≠ []) : g.record .endChain = [.chain g.nextId start g.steps.toList] := by
  obtain ⟨s, steps, hsteps⟩ := List.exists_cons_of_ne_nil h
  unfold record
  rw [hstart, hsteps]

/-- An accepted call appends the words of its records and takes the numbers that they need. -/
theorem perform_words (hg : g.perform c = .ok (r, g')) :
    g'.words.toList = g.words.toList ++ Event.wordsFrom g.nextId (g.record c) ∧
      g'.nextId = Event.endFrom g.nextId (g.record c) := by
  cases c with
  | root ls =>
    obtain ⟨-, rfl⟩ := Prod.mk.inj (Except.ok.inj hg)
    exact ⟨by simp [addRoot, record, Event.wordsFrom, Event.words], rfl⟩
  | beginChain start =>
    obtain ⟨-, rfl⟩ := Prod.mk.inj (Except.ok.inj hg)
    exact ⟨(List.append_nil _).symm, rfl⟩
  | resolve next v =>
    obtain ⟨g₁, hg₁, hg⟩ := bind_eq_ok_iff.1 hg
    obtain ⟨-, rfl⟩ := Prod.mk.inj (Except.ok.inj hg)
    obtain ⟨-, rfl⟩ := resolve_eq_ok hg₁
    exact ⟨(List.append_nil _).symm, rfl⟩
  | endChain =>
    obtain ⟨⟨id, g₁⟩, hg₁, hg⟩ := bind_eq_ok_iff.1 hg
    obtain ⟨-, rfl⟩ := Prod.mk.inj (Except.ok.inj hg)
    obtain ⟨start, hstart, ⟨hnil, -, rfl⟩ | ⟨hne, -, ws, hws, rfl⟩⟩ := endChain_eq_ok hg₁
    · rw [record_endChain_of_nil hnil]
      exact ⟨(List.append_nil _).symm, rfl⟩
    · obtain ⟨rfl, -, -⟩ := chainWords_eq_ok hws
      rw [record_endChain_of_ne_nil hstart hne]
      exact ⟨by simp [Event.wordsFrom], rfl⟩
  | deleted gone =>
    obtain ⟨g₁, hg₁, hg⟩ := bind_eq_ok_iff.1 hg
    obtain ⟨-, rfl⟩ := Prod.mk.inj (Except.ok.inj hg)
    obtain ⟨-, rfl⟩ := deleted_eq_ok hg₁
    exact ⟨by simp [record, Event.wordsFrom, Event.words], rfl⟩

theorem performAll_words (hg : g.performAll cs = .ok (rs, g')) :
    g'.words.toList = g.words.toList ++ Event.wordsFrom g.nextId (g.recordAll cs) ∧
      g'.nextId = Event.endFrom g.nextId (g.recordAll cs) := by
  induction cs generalizing g rs with
  | nil =>
    obtain ⟨-, rfl⟩ := Prod.mk.inj (Except.ok.inj hg)
    exact ⟨(List.append_nil _).symm, rfl⟩
  | cons c cs ih =>
    obtain ⟨⟨r, g₁⟩, hg₁, hg⟩ := bind_eq_ok_iff.1 hg
    obtain ⟨⟨rs', g₂⟩, hg₂, hg⟩ := bind_eq_ok_iff.1 hg
    obtain ⟨-, rfl⟩ := Prod.mk.inj (Except.ok.inj hg)
    obtain ⟨hwords, hnext⟩ := perform_words hg₁
    obtain ⟨hwords', hnext'⟩ := ih hg₂
    rw [recordAll_cons hg₁, Event.wordsFrom_append, Event.endFrom_append, ← hnext,
      ← List.append_assoc, ← hwords]
    exact ⟨hwords', hnext'⟩

/-- The words of a log are those of the records that the calls wrote. -/
theorem words_of_calls (hg : performAll {} cs = .ok (rs, g)) :
    g.words.toList = Event.wordsFrom 0 (recordAll {} cs) ∧
      g.nextId = Event.endFrom 0 (recordAll {} cs) := performAll_words hg

theorem performAll_append (hg : g.performAll (cs ++ ds) = .ok (rs, g'')) :
    ∃ rs₁ rs₂ g', g.performAll cs = .ok (rs₁, g') ∧ g'.performAll ds = .ok (rs₂, g'') ∧
      rs = rs₁ ++ rs₂ ∧ g.recordAll (cs ++ ds) = g.recordAll cs ++ g'.recordAll ds := by
  induction cs generalizing g rs with
  | nil => exact ⟨[], rs, g, rfl, hg, rfl, rfl⟩
  | cons c cs ih =>
    obtain ⟨⟨r, g₁⟩, hg₁, hg⟩ := bind_eq_ok_iff.1 hg
    obtain ⟨⟨rs', g₂⟩, hg₂, hg⟩ := bind_eq_ok_iff.1 hg
    obtain ⟨rfl, rfl⟩ := Prod.mk.inj (Except.ok.inj hg)
    obtain ⟨rs₁, rs₂, g', hcs, hds, rfl, hrecords⟩ := ih hg₂
    refine ⟨r :: rs₁, rs₂, g', bind_eq_ok_iff.2 ⟨_, hg₁, bind_eq_ok_iff.2 ⟨_, hcs, rfl⟩⟩, hds, rfl,
      ?_⟩
    rw [List.cons_append, recordAll_cons hg₁, recordAll_cons hg₁, hrecords, List.append_assoc]

end Cdcl.Log
