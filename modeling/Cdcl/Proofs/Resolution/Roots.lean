import Cdcl.Proofs.Resolution.Replaying
import Cdcl.Proofs.Resolution.Wrapping
import Cdcl.Proofs.Resolution.Writing

/-!
# Roots that come back

After any calls, a root over literals that numbers of 32 bits name comes back as the sorted list of its
literals if it is empty or holds a literal below variable 2³⁰, and otherwise it does not
(`root_read_back`). The root whose only literal is -2³⁰ comes back empty and passes the check.
-/

namespace Cdcl.Log
set_option autoImplicit false

open Event (unheard blank rootHeard)

variable {g g' : Log} {c : Call} {cs : List Call} {r : Option ClauseId}
  {rs : List (Option ClauseId)} {ls : List Literal} {es : List Event}

/-! ## Named calls -/

/-- The literals of a call are named by numbers of 32 bits, and its variable is one. -/
def Call.Named : Call → Prop
  | .root literals => ∀ l ∈ literals, l.Named
  | .resolve _ v => v.id ≠ 0
  | _ => True

/-- The steps that wait to be written resolve on variables. -/
def Stepping (g : Log) : Prop := ∀ s ∈ g.steps.toList, s.1.id ≠ 0

theorem Stepping.perform (h : g.Stepping) (hc : c.Named) (hg : g.perform c = .ok (r, g')) :
    g'.Stepping ∧ Event.WideFrom g.nextId (g.record c) := by
  cases c with
  | root ls =>
    obtain ⟨-, rfl⟩ := Prod.mk.inj (Except.ok.inj hg)
    exact ⟨h, ⟨rfl, Literal.ascending_canonical ls, fun l hl => hc l (Literal.mem_canonical.1 hl)⟩,
      trivial⟩
  | beginChain start =>
    obtain ⟨-, rfl⟩ := Prod.mk.inj (Except.ok.inj hg)
    exact ⟨by simp [Stepping, beginChain], trivial⟩
  | resolve next v =>
    obtain ⟨g₁, hg₁, hg⟩ := bind_eq_ok_iff.1 hg
    obtain ⟨-, rfl⟩ := Prod.mk.inj (Except.ok.inj hg)
    obtain ⟨-, rfl⟩ := resolve_eq_ok hg₁
    refine ⟨fun s hs => ?_, trivial⟩
    rcases List.mem_append.1 (Array.toList_push ▸ hs) with hs | hs
    · exact h s hs
    · rw [List.mem_singleton.1 hs]
      exact hc
  | endChain =>
    obtain ⟨⟨id, g₁⟩, hg₁, hg⟩ := bind_eq_ok_iff.1 hg
    obtain ⟨-, rfl⟩ := Prod.mk.inj (Except.ok.inj hg)
    obtain ⟨start, hstart, ⟨hnil, -, rfl⟩ | ⟨hne, -, ws, hws, rfl⟩⟩ := endChain_eq_ok hg₁
    · rw [record_endChain_of_nil hnil]
      exact ⟨h, trivial⟩
    · obtain ⟨-, hle, hall⟩ := chainWords_eq_ok hws
      rw [record_endChain_of_ne_nil hstart hne]
      exact ⟨h, ⟨rfl, hle, hne, fun s hs => ⟨h s hs, hall s hs⟩⟩, trivial⟩
  | deleted gone =>
    obtain ⟨g₁, hg₁, hg⟩ := bind_eq_ok_iff.1 hg
    obtain ⟨-, rfl⟩ := Prod.mk.inj (Except.ok.inj hg)
    obtain ⟨hgone, rfl⟩ := deleted_eq_ok hg₁
    exact ⟨h, hgone, trivial⟩

theorem Stepping.performAll (h : g.Stepping) (hcs : ∀ c ∈ cs, c.Named)
    (hg : g.performAll cs = .ok (rs, g')) : Event.WideFrom g.nextId (g.recordAll cs) := by
  induction cs generalizing g rs with
  | nil => trivial
  | cons c cs ih =>
    obtain ⟨⟨r, g₁⟩, hg₁, hg⟩ := bind_eq_ok_iff.1 hg
    obtain ⟨⟨rs', g₂⟩, hg₂, hg⟩ := bind_eq_ok_iff.1 hg
    obtain ⟨-, rfl⟩ := Prod.mk.inj (Except.ok.inj hg)
    obtain ⟨hc, hcs⟩ := List.forall_mem_cons.1 hcs
    obtain ⟨h₁, hwide⟩ := h.perform hc hg₁
    rw [recordAll_cons hg₁]
    refine Event.wideFrom_append.2 ⟨hwide, ?_⟩
    rw [← (perform_words hg₁).2]
    exact ih h₁ hcs hg₂

/-- What a log of named calls tells. -/
theorem decode_of_calls (hg : Log.performAll {} cs = .ok (rs, g)) (hcs : ∀ c ∈ cs, c.Named) :
    g.decode = Event.readBackFrom 0 (recordAll {} cs) := by
  have hwide : Event.WideFrom 0 (recordAll {} cs) :=
    Stepping.performAll (g := {}) (by simp [Stepping]) hcs hg
  rw [decode, (words_of_calls hg).1, Event.decode_wide hwide]

theorem events_eq_ok : g.events = .ok es ↔ g.decode = (es, none) := by
  unfold events
  split
  · next ds hds => simp [hds]
  · next ds f hds => simp [hds]

theorem root_mem_record {ms : List Literal} : (∃ i, Event.root i ms ∈ g.record c) ↔
    ∃ ls, c = .root ls ∧ Literal.canonical ls = ms := by
  cases c with
  | root ls => simp [record, eq_comm]
  | endChain =>
    refine iff_of_false ?_ (by simp)
    rintro ⟨i, hi⟩
    simp only [record] at hi
    split at hi
    · simp at hi
    · simp at hi
  | beginChain start => simp [record]
  | resolve next v => simp [record]
  | deleted gone => simp [record]

/-- The roots among the records are those that were given, in canonical form. -/
theorem root_mem_recordAll {ms : List Literal} (hg : g.performAll cs = .ok (rs, g')) :
    (∃ i, Event.root i ms ∈ g.recordAll cs) ↔ ∃ ls, .root ls ∈ cs ∧ Literal.canonical ls = ms := by
  induction cs generalizing g rs with
  | nil => simp [recordAll]
  | cons c cs ih =>
    obtain ⟨⟨r, g₁⟩, hg₁, hg⟩ := bind_eq_ok_iff.1 hg
    obtain ⟨⟨rs', g₂⟩, hg₂, hg⟩ := bind_eq_ok_iff.1 hg
    obtain ⟨-, rfl⟩ := Prod.mk.inj (Except.ok.inj hg)
    simp only [recordAll_cons hg₁, List.mem_append, exists_or, root_mem_record, ih hg₂,
      List.mem_cons, or_and_right, eq_comm (a := c)]

/-- A log can be read unless one of its roots starts with the literal whose first word is 0. -/
theorem events_succeeds_iff (hg : Log.performAll {} cs = .ok (rs, g)) (hcs : ∀ c ∈ cs, c.Named) :
    (∃ es, g.events = .ok es) ↔
      ∀ ms, .root ms ∈ cs → (Literal.canonical ms).head? ≠ some unheard := by
  have hread : (∃ es, g.events = .ok es) ↔ (Event.readBackFrom 0 (recordAll {} cs)).2 = none := by
    simp only [events_eq_ok, decode_of_calls hg hcs, Prod.ext_iff, exists_eq_left']
  rw [hread, Event.readBackFrom_eq_none]
  constructor
  · intro h ms hms
    obtain ⟨i, hi⟩ := (root_mem_recordAll hg).2 ⟨ms, hms, rfl⟩
    exact h i _ hi
  · rintro h i _ hi
    obtain ⟨ms, hms, rfl⟩ := (root_mem_recordAll hg).1 ⟨i, hi⟩
    exact h ms hms

theorem decode_addRoot (hg : Log.performAll {} cs = .ok (rs, g)) (hcs : ∀ c ∈ cs, c.Named)
    (hls : ∀ l ∈ ls, l.Named) : (g.addRoot ls).2.decode =
      Event.readBackFrom 0 (recordAll {} cs ++ [.root g.nextId (Literal.canonical ls)]) := by
  obtain ⟨hwords, hnext⟩ := words_of_calls hg
  have hroot : g.perform (.root ls) = .ok (some g.nextId, (g.addRoot ls).2) := rfl
  have hwide : Event.WideFrom 0 (recordAll {} cs) :=
    Stepping.performAll (g := {}) (by simp [Stepping]) hcs hg
  have hlast : Event.WideFrom g.nextId [.root g.nextId (Literal.canonical ls)] :=
    ⟨⟨rfl, Literal.ascending_canonical ls, fun l hl => hls l (Literal.mem_canonical.1 hl)⟩, trivial⟩
  rw [decode, (perform_words hroot).1, hwords, hnext, record, hnext, ← Event.wordsFrom_append,
    Event.decode_wide (Event.wideFrom_append.2 ⟨hwide, hnext ▸ hlast⟩)]

/-- What a readable log tells once a root is added to it. -/
theorem events_addRoot (hg : Log.performAll {} cs = .ok (rs, g)) (hcs : ∀ c ∈ cs, c.Named)
    (hls : ∀ l ∈ ls, l.Named) (hes : g.events = .ok es) : (g.addRoot ls).2.events =
      ((Event.root g.nextId (Literal.canonical ls)).readBack g.nextId).map fun d => es ++ [d] := by
  have hdecode := (decode_of_calls hg hcs).symm.trans (events_eq_ok.1 hes)
  unfold events
  rw [decode_addRoot hg hcs hls, Event.readBackFrom_append, hdecode, ← (words_of_calls hg).2,
    Event.readBackFrom]
  cases Event.readBack g.nextId (.root g.nextId (Literal.canonical ls)) <;> rfl

/-! ## The check -/

/-- A replay that succeeds ends with a visit to a record of the goal. -/
theorem follow_eq_ok {goal : ClauseId} {stop : Option Fault} {k : Checker} {x : Replay}
    (h : follow goal stop k es = .ok x) (hok : x.outcome = .ok ()) :
    ∃ e ∈ es, recorded e = some goal ∧ ∃ k' : Checker, k'.visit e = .ok (.ok (), x.checker) := by
  induction es generalizing k x with
  | nil =>
    cases stop with
    | none =>
      obtain rfl : _ = x := Except.ok.inj h
      exact absurd hok (by simp)
    | some f => exact absurd h (by simp [follow])
  | cons e es ih =>
    obtain ⟨⟨y, k'⟩, hy, h⟩ := bind_eq_ok_iff.1 h
    cases y with
    | error reason =>
      obtain rfl : _ = x := Except.ok.inj h
      exact absurd hok (by simp)
    | ok =>
      simp only at h
      split at h
      · next hgoal =>
        obtain rfl : _ = x := Except.ok.inj h
        exact ⟨e, List.mem_cons_self, hgoal, k, hy⟩
      · obtain ⟨x', hx', h⟩ := bind_eq_ok_iff.1 h
        obtain rfl : _ = x := Except.ok.inj h
        obtain ⟨d, hd, hgoal, hvisit⟩ := ih (x := x') hx' hok
        exact ⟨d, List.mem_cons_of_mem e hd, hgoal, hvisit⟩

/-- The check of a root passes only if all that is read of the root is the empty clause. -/
theorem blank_of_check (hg : Log.performAll {} cs = .ok (rs, g)) (hcs : ∀ c ∈ cs, c.Named)
    (hls : ∀ l ∈ ls, l.Named)
    (hcheck : (g.addRoot ls).2.check (some g.nextId) = .ok (.ok ())) : ∀ l ∈ ls, l = blank := by
  obtain ⟨x, hx, hok, hempty⟩ := check_eq_ok rfl hcheck
  obtain ⟨e, he, hgoal, k, hvisit⟩ := follow_eq_ok hx hok
  have hwide : Event.WideFrom 0 (recordAll {} cs) :=
    Stepping.performAll (g := {}) (by simp [Stepping]) hcs hg
  -- no earlier record has the number of the root
  have hlate : e ∉ (Event.readBackFrom 0 (recordAll {} cs)).1 := fun hmem => by
    have hlt := Event.recorded_lt_endFrom hwide hmem hgoal
    rw [← (words_of_calls hg).2] at hlt
    exact Nat.lt_irrefl _ hlt
  rw [decode_addRoot hg hcs hls, Event.readBackFrom_append, ← (words_of_calls hg).2] at he
  have hback : Event.readBack g.nextId (.root g.nextId (Literal.canonical ls)) = .ok e := by
    split at he
    · exact absurd he hlate
    · replace he := (List.mem_append.1 he).resolve_left hlate
      rw [Event.readBackFrom] at he
      cases hb : Event.readBack g.nextId (.root g.nextId (Literal.canonical ls)) with
      | error f => simp [hb] at he
      | ok d =>
        simp only [hb, Event.readBackFrom, List.mem_singleton] at he
        rw [he]
  have hhead : (Literal.canonical ls).head? ≠ some unheard :=
    Event.readBack_succeeds_iff.1 ⟨e, hback⟩ _ _ rfl
  rw [Event.readBack, if_neg hhead] at hback
  obtain rfl := Except.ok.inj hback
  obtain ⟨hid, hchecker⟩ := Checker.visit_eq_ok hvisit
  rw [hchecker, hid] at hempty
  have hnil : rootHeard (Literal.canonical ls) = [] := by
    rw [Checker.clause_eq_ok_iff, Array.getElem?_push_size] at hempty
    exact Option.some.inj (Option.some.inj hempty)
  have hblank := (Event.rootHeard_eq_nil (Literal.ascending_canonical ls) hhead).1 hnil
  exact fun l hl => hblank l (Literal.mem_canonical.2 hl)

/-- A root passes the check by itself if and only if nothing of it is read. -/
theorem check_root_iff (hls : ∀ l ∈ ls, l.Named) :
    (({} : Log).addRoot ls).2.check none = .ok (.ok ()) ↔ ∀ l ∈ ls, l = blank := by
  constructor
  · have hempty : Log.performAll {} [] = .ok ([], {}) := rfl
    exact fun h => blank_of_check hempty (by simp) hls h
  · intro h
    have hcanonical : Literal.canonical ls = [] ∨ Literal.canonical ls = [blank] := by
      cases ls with
      | nil => exact Or.inl rfl
      | cons l ls =>
        right
        change _ = Literal.canonical [blank]
        refine Literal.canonical_congr fun k => ?_
        rw [List.mem_singleton]
        exact ⟨h k, fun hk => hk ▸ (h l List.mem_cons_self) ▸ List.mem_cons_self⟩
    unfold addRoot
    rcases hcanonical with hnil | hblank
    · rw [hnil]
      rfl
    · rw [hblank]
      rfl

/-- After any calls, a root over literals that numbers of 32 bits name comes back as the sorted list
of its literals if and only if it is empty or holds a literal below variable 2³⁰, provided that the
log could be read before. It could unless the first literal of an earlier root is 2³⁰. A root that
is not empty passes the check if -2³⁰ is its only literal. -/
theorem root_read_back (hg : Log.performAll {} cs = .ok (rs, g)) (hcs : ∀ c ∈ cs, c.Named)
    (hls : ∀ l ∈ ls, l.Named) :
    ((∃ es, g.events = .ok es) ↔
      ∀ ms, .root ms ∈ cs → (Literal.canonical ms).head? ≠ some unheard) ∧
    (∀ es, g.events = .ok es →
      ((g.addRoot ls).2.events = .ok (es ++ [.root g.nextId (Literal.canonical ls)]) ↔
        ls = [] ∨ ∃ l ∈ ls, l.var.id < Event.varLimit)) ∧
    ((g.addRoot ls).2.check (some g.nextId) = .ok (.ok ()) → ∀ l ∈ ls, l = blank) ∧
    ((({} : Log).addRoot ls).2.check none = .ok (.ok ()) ↔ ∀ l ∈ ls, l = blank) := by
  refine ⟨events_succeeds_iff hg hcs, fun es hes => ?_, blank_of_check hg hcs hls,
    check_root_iff hls⟩
  have hasc := Literal.ascending_canonical ls
  have hsame := Event.rootHeard_eq_self hasc fun l hl => hls l (Literal.mem_canonical.1 hl)
  have hgiven : (Literal.canonical ls = [] ∨ ∃ l ∈ Literal.canonical ls, l.var.id < Event.varLimit) ↔
      (ls = [] ∨ ∃ l ∈ ls, l.var.id < Event.varLimit) := by
    simp only [List.eq_nil_iff_forall_not_mem, Literal.mem_canonical]
  rw [← hgiven, events_addRoot hg hcs hls hes, Event.readBack]
  split
  · next hhead =>
    obtain ⟨ms, hms⟩ := List.head?_eq_some_iff.1 hhead
    rw [hms] at hasc ⊢
    refine iff_of_false (by simp [Except.map]) ?_
    rintro (hnil | ⟨l, hl, hlt⟩)
    · exact absurd hnil (by simp)
    · exact absurd (Event.le_of_ascending hasc hl) (Nat.not_le.2 hlt)
  · rw [← hsame]
    simp [Except.map]

/-- The largest variable comes back behind a smaller one. -/
theorem root_read_back_largest_variable :
    let cs : List Call := [.root [⟨⟨1⟩, true⟩], .beginChain 0, .resolve 0 ⟨1⟩]
    let ls : List Literal := [⟨⟨0x7FFFFFFF⟩, true⟩, ⟨⟨5⟩, false⟩]
    (∀ c ∈ cs, c.Named) ∧ (∀ l ∈ ls, l.Named) ∧ ∃ rs g, Log.performAll {} cs = .ok (rs, g) ∧
      g.events = .ok [.root 0 [⟨⟨1⟩, true⟩]] ∧
      (g.addRoot ls).2.events =
        .ok [.root 0 [⟨⟨1⟩, true⟩], .root 1 [⟨⟨5⟩, false⟩, ⟨⟨0x7FFFFFFF⟩, true⟩]] := by
  intro cs ls
  have hcs : ∀ c ∈ cs, c.Named := by
    simp [cs, Call.Named, Literal.named_iff, Var.signedLimit]
  have hls : ∀ l ∈ ls, l.Named := by
    simp [ls, Literal.named_iff, Var.signedLimit]
  refine ⟨hcs, hls, _, _, rfl, rfl, ?_⟩
  exact ((root_read_back rfl hcs hls).2.1 [.root 0 [⟨⟨1⟩, true⟩]] rfl).2
    (Or.inr ⟨⟨⟨5⟩, false⟩, by simp [ls], by decide⟩)

/-- The root of the literal -2³⁰ is not empty, but that is what is read of it, and it passes the
check. -/
theorem root_read_back_empty : ∃ ls : List Literal, ls ≠ [] ∧ (∀ l ∈ ls, l.Named) ∧
    (({} : Log).addRoot ls).2.events = .ok [.root 0 []] ∧
    (({} : Log).addRoot ls).2.check none = .ok (.ok ()) := by
  refine ⟨[⟨⟨0x40000000⟩, true⟩], by simp, ?_, rfl, rfl⟩
  simp [Literal.named_iff, Var.signedLimit]

end Cdcl.Log
