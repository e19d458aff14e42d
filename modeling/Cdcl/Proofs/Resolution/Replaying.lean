import Cdcl.Proofs.Resolution.Checking

/-!
# Logs that a checker accepts

`Checker.Shows` says which clause a checker has under a number, up to order and repetition, and
`Checker.Derives` which clause a chain leads to. `Log.Accepted` says that a checker takes all records
of a log; writing roots, chains that derive something and deletions keeps it. `Log.Refutes` says that
the last record of an accepted log is the empty clause, and then the check passes (`Refutes.check`).
-/

namespace Cdcl
set_option autoImplicit false

namespace Resolution

variable {c d : List Literal} {l : Literal} {v : Var}

theorem literalOf_eq (hl : l ∈ c) (h : ∀ k ∈ c, k.var = l.var → k = l) :
    literalOf l.var c = .ok l := by
  unfold literalOf
  cases hf : c.find? (·.var == l.var) with
  | none => simpa using List.find?_eq_none.1 hf l hl
  | some k =>
    have hv : k.var = l.var := by simpa using List.find?_some hf
    simp [h k (List.mem_of_find?_eq_some hf) hv]

/-- Two clauses that hold opposite literals of a variable, and no others of it, are resolved. -/
theorem resolve_eq (hl : l ∈ c) (hn : -l ∈ d) (hc : ∀ k ∈ c, k.var = l.var → k = l)
    (hd : ∀ k ∈ d, k.var = l.var → k = -l) : resolve c d l.var = .ok (resolvent c d l.var) := by
  have hopposite : literalOf l.var d = .ok (-l) := literalOf_eq hn hd
  unfold resolve
  rw [literalOf_eq hl hc, hopposite]
  simp [bind, Except.bind, (Literal.neg_ne_self l).symm]

end Resolution

namespace Checker

variable {k k' k'' : Checker} {id next start : ClauseId} {ls ms rs c r : List Literal} {l : Literal}
  {steps more : List ResolutionStep} {e : Event} {es fs : List Event}

/-! ## Clauses and chains -/

/-- The clause of the number has these literals. -/
def Shows (k : Checker) (id : ClauseId) (ls : List Literal) : Prop :=
  ∃ c, k.clause id = .ok c ∧ ∀ l, l ∈ c ↔ l ∈ ls

/-- The chain leads to a clause of these literals. -/
def Derives (k : Checker) (start : ClauseId) (steps : List ResolutionStep) (ls : List Literal) :
    Prop :=
  ∃ c, k.derive start steps = .ok c ∧ ∀ l, l ∈ c ↔ l ∈ ls

/-- No clause is lost. -/
def Keeps (k k' : Checker) : Prop := ∀ id c, k.clause id = .ok c → k'.clause id = .ok c

theorem Shows.congr (h : k.Shows id ls) (hls : ∀ l, l ∈ ls ↔ l ∈ ms) : k.Shows id ms := by
  obtain ⟨c, hc, hmem⟩ := h
  exact ⟨c, hc, fun l => (hmem l).trans (hls l)⟩

theorem Shows.lt_size (h : k.Shows id ls) : id < k.clauses.size := by
  obtain ⟨c, hc, -⟩ := h
  exact (Array.getElem?_eq_some_iff.1 (clause_eq_ok_iff.1 hc)).1

theorem Shows.keeps (h : k.Shows id ls) (hk : k.Keeps k') : k'.Shows id ls := by
  obtain ⟨c, hc, hmem⟩ := h
  exact ⟨c, hk id c hc, hmem⟩

theorem Derives.congr (h : k.Derives start steps ls) (hls : ∀ l, l ∈ ls ↔ l ∈ ms) :
    k.Derives start steps ms := by
  obtain ⟨c, hc, hmem⟩ := h
  exact ⟨c, hc, fun l => (hmem l).trans (hls l)⟩

theorem Derives.of_shows (h : k.Shows start ls) : k.Derives start [] ls := by
  obtain ⟨c, hc, hmem⟩ := h
  exact ⟨c, derive_eq_ok.2 ⟨c, hc, rfl⟩, hmem⟩

theorem Derives.shows (h : k.Derives start [] ls) : k.Shows start ls := by
  obtain ⟨c, hc, hmem⟩ := h
  obtain ⟨d, hd, hc⟩ := derive_eq_ok.1 hc
  obtain rfl : d = c := by simpa [runSteps] using hc
  exact ⟨d, hd, hmem⟩

theorem runSteps_append (h : k.runSteps c steps = .ok r) :
    k.runSteps c (steps ++ more) = k.runSteps r more := by
  induction steps generalizing c with
  | nil =>
    obtain rfl : c = r := by simpa [runSteps] using h
    rfl
  | cons s steps ih =>
    obtain ⟨v, next⟩ := s
    obtain ⟨d, m, hd, hm, h⟩ := runSteps_cons_eq_ok.1 h
    rw [List.cons_append, runSteps, hd]
    change (Cdcl.resolve c d v >>= fun r => k.runSteps r (steps ++ more)) = _
    rw [hm]
    exact ih h

/-- A chain goes on with a clause that holds the opposite of one of its literals. -/
theorem Derives.step (h : k.Derives start steps ls) (hnext : k.Shows next ms) (hl : l ∈ ls)
    (hn : -l ∈ ms) (hls : ∀ j ∈ ls, j.var = l.var → j = l)
    (hms : ∀ j ∈ ms, j.var = l.var → j = -l)
    (hrs : ∀ j, j ∈ rs ↔ (j ∈ ls ∨ j ∈ ms) ∧ j.var ≠ l.var) :
    k.Derives start (steps ++ [(l.var, next)]) rs := by
  obtain ⟨c, hc, hmem⟩ := h
  obtain ⟨d, hd, hmem'⟩ := hnext
  have hres : Cdcl.resolve c d l.var = .ok (resolvent c d l.var) :=
    Resolution.resolve_eq ((hmem l).2 hl) ((hmem' (-l)).2 hn) (fun j hj => hls j ((hmem j).1 hj))
      fun j hj => hms j ((hmem' j).1 hj)
  refine ⟨resolvent c d l.var, ?_, fun j => ?_⟩
  · obtain ⟨b, hb, hc⟩ := derive_eq_ok.1 hc
    refine derive_eq_ok.2 ⟨b, hb, ?_⟩
    rw [runSteps_append hc, runSteps_cons_eq_ok]
    exact ⟨d, _, hd, hres, rfl⟩
  · rw [Resolution.mem_resolvent, hrs, hmem, hmem']

/-- Units remove the literals they contradict from the clause of a chain. -/
theorem Derives.units (h : k.Derives start steps ls) (hnodup : (more.map Prod.fst).Nodup)
    (hunit : ∀ s ∈ more, ∃ l ∈ ls, l.var = s.1 ∧ k.Shows s.2 [-l])
    (hls : ∀ j ∈ ls, ∀ l ∈ ls, j.var = l.var → j.var ∈ more.map Prod.fst → j = l) :
    k.Derives start (steps ++ more) (ls.filter fun l => l.var ∉ more.map Prod.fst) := by
  induction more generalizing steps ls with
  | nil => simpa using h
  | cons s more ih =>
    obtain ⟨l, hl, hv, hshows⟩ := hunit s List.mem_cons_self
    rw [List.map_cons, List.nodup_cons] at hnodup
    have hstep : k.Derives start (steps ++ [(l.var, s.2)]) (ls.filter fun j => j.var ≠ l.var) := by
      refine h.step hshows hl List.mem_cons_self (fun j hj hjl => ?_) (fun j hj _ => ?_) fun j => ?_
      · refine hls j hj l hl hjl ?_
        rw [hjl, hv]
        exact List.mem_cons_self
      · exact List.mem_singleton.1 hj
      · rw [List.mem_filter, List.mem_singleton]
        constructor
        · rintro ⟨hj, hne⟩
          exact ⟨Or.inl hj, by simpa using hne⟩
        · rintro ⟨hj | rfl, hne⟩
          · exact ⟨hj, by simpa using hne⟩
          · exact absurd rfl hne
    have hrest := ih hstep hnodup.2 (fun s' hs' => ?_) fun j hj m hm hjm hin => ?_
    · rw [List.append_assoc, hv] at hrest
      refine hrest.congr fun j => ?_
      simp only [List.mem_filter, List.map_cons, List.mem_cons, not_or, decide_eq_true_eq]
      exact and_assoc
    · obtain ⟨m, hm, hmv, hms⟩ := hunit s' (List.mem_cons_of_mem s hs')
      refine ⟨m, List.mem_filter.2 ⟨hm, ?_⟩, hmv, hms⟩
      have hne : m.var ≠ l.var := by
        rw [hmv, hv]
        intro heq
        exact hnodup.1 (heq ▸ List.mem_map_of_mem hs')
      simpa using hne
    · exact hls j (List.mem_filter.1 hj).1 m (List.mem_filter.1 hm).1 hjm
        (List.mem_cons_of_mem _ hin)

/-! ## Visits -/

/-- The checker accepts the records one after the other. -/
def Visits (k : Checker) : List Event → Checker → Prop
  | [], k' => k' = k
  | e :: es, k' => ∃ k₁, k.visit e = .ok (.ok (), k₁) ∧ Visits k₁ es k'

theorem visits_append : k.Visits (es ++ fs) k'' ↔ ∃ k', k.Visits es k' ∧ k'.Visits fs k'' := by
  induction es generalizing k with
  | nil =>
    constructor
    · intro h
      exact ⟨k, rfl, h⟩
    · rintro ⟨k', hk', h⟩
      exact hk' ▸ h
  | cons e es ih =>
    constructor
    · rintro ⟨k₁, hk₁, h⟩
      obtain ⟨k', hk', h'⟩ := ih.1 h
      exact ⟨k', ⟨k₁, hk₁, hk'⟩, h'⟩
    · rintro ⟨k', ⟨k₁, hk₁, hk'⟩, h'⟩
      exact ⟨k₁, hk₁, ih.2 ⟨k', hk', h'⟩⟩

theorem Visits.concat (h : k.Visits es k') (he : k'.visit e = .ok (.ok (), k'')) :
    k.Visits (es ++ [e]) k'' := visits_append.2 ⟨k', h, k'', he, rfl⟩

/-- A visited record gets the next number, if it gets one. -/
theorem size_visit (h : k.visit e = .ok (.ok (), k')) :
    k'.clauses.size = Event.after k.clauses.size e ∧
      ∀ i, Log.recorded e = some i → i = k.clauses.size := by
  have hv := visit_eq_ok h
  cases e with
  | root i ls =>
    obtain ⟨hi, rfl⟩ := hv
    exact ⟨Array.size_push _, fun j hj => (Option.some.inj hj).symm.trans hi⟩
  | chain i start steps =>
    obtain ⟨hi, r, -, rfl⟩ := hv
    exact ⟨Array.size_push _, fun j hj => (Option.some.inj hj).symm.trans hi⟩
  | deleted i =>
    obtain ⟨-, rfl⟩ := hv
    exact ⟨Array.size_setIfInBounds, fun j hj => absurd hj (by simp [Log.recorded])⟩

theorem Visits.size (h : k.Visits es k') :
    k'.clauses.size = Event.endFrom k.clauses.size es := by
  induction es generalizing k with
  | nil =>
    obtain rfl : k' = k := h
    rfl
  | cons e es ih =>
    obtain ⟨k₁, hk₁, h⟩ := h
    rw [ih h, (size_visit hk₁).1]
    rfl

end Checker

namespace Log

open Checker (Shows Derives Keeps Visits)

variable {g g' : Log} {es : List Event} {k : Checker} {id start : ClauseId}
  {steps : List ResolutionStep} {ls : List Literal}

/-! ## Accepted logs -/

/-- The log holds these records, a checker accepts them, and then knows these clauses. -/
structure Accepted (g : Log) (es : List Event) (k : Checker) : Prop where
  records : g.Records es
  visits : Visits ⟨#[]⟩ es k

/-- The last record of an accepted log is the empty clause of this number. -/
def Refutes (g : Log) (id : ClauseId) : Prop :=
  ∃ es e k, g.Accepted (es ++ [e]) k ∧ recorded e = some id ∧ k.Shows id []

theorem Accepted.empty : Accepted {} [] ⟨#[]⟩ := ⟨Records.empty, rfl⟩

theorem Accepted.size (h : g.Accepted es k) : k.clauses.size = g.nextId := by
  rw [h.visits.size, h.records.next]
  rfl

theorem Accepted.addRoot (h : g.Accepted es k) (hfit : ∀ l ∈ ls, Event.LiteralFits l) :
    (g.addRoot ls).2.Accepted (es ++ [.root g.nextId (Literal.canonical ls)])
      ⟨k.clauses.push (some (Literal.canonical ls))⟩ := by
  refine ⟨h.records.addRoot hfit, h.visits.concat ?_⟩
  simp [Checker.visit, Checker.root, Checker.push, h.size, require, bind, Except.bind]

theorem keeps_push {c : List Literal} : k.Keeps ⟨k.clauses.push (some c)⟩ :=
  fun _ _ hd => Checker.clause_push.2 (Or.inr hd)

theorem shows_push {c : List Literal} (hls : ∀ l, l ∈ c ↔ l ∈ ls) :
    Shows ⟨k.clauses.push (some c)⟩ k.clauses.size ls :=
  ⟨c, Checker.clause_push.2 (Or.inl ⟨rfl, rfl⟩), hls⟩

theorem Records.resolveAll (h : g.Records es) (hsteps : ∀ s ∈ steps, s.1.id ≠ 0)
    (hg : g.resolveAll steps = .ok g') :
    g'.Records es ∧ g'.start = g.start ∧ g'.steps.toList = g.steps.toList ++ steps ∧
      g'.nextId = g.nextId := by
  induction steps generalizing g with
  | nil =>
    obtain rfl : g = g' := Except.ok.inj hg
    exact ⟨h, rfl, (List.append_nil _).symm, rfl⟩
  | cons s steps ih =>
    obtain ⟨v, next⟩ := s
    obtain ⟨g₁, hg₁, hg⟩ := bind_eq_ok_iff.1 hg
    obtain ⟨hv, hsteps'⟩ := List.forall_mem_cons.1 hsteps
    obtain ⟨hrec, hstart, hall, hnext⟩ := ih (h.resolve hv hg₁) hsteps' hg
    obtain ⟨-, rfl⟩ := resolve_eq_ok hg₁
    refine ⟨hrec, hstart, ?_, hnext⟩
    rw [hall]
    simp

/-- A chain that derives a clause shows it; without steps it stays where it started, otherwise its
clause is the last record. -/
theorem Accepted.derive (h : g.Accepted es k) (hsteps : ∀ s ∈ steps, s.1.id ≠ 0)
    (hd : k.Derives start steps ls) (hg : g.derive start steps = .ok (id, g')) :
    (steps = [] ∧ id = start ∧ g'.Accepted es k) ∨
      (id = g.nextId ∧ ∃ e k', g'.Accepted (es ++ [e]) k' ∧ recorded e = some id ∧ k.Keeps k' ∧
        k'.Shows id ls) := by
  obtain ⟨g₁, hg₁, hg⟩ := bind_eq_ok_iff.1 hg
  obtain ⟨hrec, hstart, hall, hnext⟩ := (h.records.beginChain start).resolveAll hsteps hg₁
  have hsteps₁ : g₁.steps.toList = steps := by simpa [beginChain] using hall
  have hnext₁ : g₁.nextId = g.nextId := hnext
  obtain ⟨start', hstart', hend⟩ := endChain_eq_ok hg
  obtain rfl : start = start' := Option.some.inj (hstart.symm.trans hstart')
  rw [hsteps₁] at hend
  rcases hend with ⟨hnil, rfl, rfl⟩ | ⟨hne, hid, ws, hws, rfl⟩
  · exact Or.inl ⟨hnil, rfl, hrec, h.visits⟩
  · right
    obtain ⟨c, hc, hmem⟩ := hd
    have hid' : id = k.clauses.size := by rw [hid, hnext₁, h.size]
    refine ⟨hid.trans hnext₁, .chain id start steps, ⟨k.clauses.push (some c)⟩, ?_, rfl, keeps_push,
      hid' ▸ shows_push hmem⟩
    have hws₁ : Event.chainWords g₁.nextId start g₁.steps.toList = .ok ws := by rwa [hsteps₁]
    have hchain := hrec.chain (by rwa [hsteps₁]) hws₁
    rw [hsteps₁, ← hid] at hchain
    refine ⟨hid ▸ hchain, h.visits.concat ?_⟩
    simp [Checker.visit, Checker.chain, Checker.settle, hc, Checker.push, hid', require, bind, Except.bind]

theorem Accepted.deleted {gone : ClauseId} (h : g.Accepted es k)
    (hg : g.deleted gone = .ok g') :
    ∃ k', g'.Accepted (es ++ [.deleted gone]) k' ∧
      ∀ i ms, i ≠ gone → k.Shows i ms → k'.Shows i ms := by
  have hgone : gone < k.clauses.size := by
    rw [h.size]
    exact (deleted_eq_ok hg).1
  refine ⟨⟨k.clauses.setIfInBounds gone none⟩, ⟨h.records.deleted hg, h.visits.concat ?_⟩, ?_⟩
  · simp [Checker.visit, Checker.settle, Checker.deleted, hgone]
  · rintro i ms hne ⟨c, hc, hmem⟩
    exact ⟨c, (Checker.clause_deleted hgone).2 ⟨hne, hc⟩, hmem⟩

/-! ## The check -/

/-- A replay visits the records up to the goal. -/
theorem follow_of_visits {goal : ClauseId} (stop : Option Fault) {k₀ k' : Checker} {e : Event}
    (h : k₀.Visits es k) (he : k.visit e = .ok (.ok (), k')) (hgoal : recorded e = some goal) :
    ∃ r, follow goal stop k₀ (es ++ [e]) = .ok r ∧ r.outcome = .ok () ∧ r.checker = k' := by
  induction es generalizing k₀ with
  | nil =>
    obtain rfl : k = k₀ := h
    refine ⟨⟨[.accepted e (derived k' e), .done], k', .ok ()⟩, ?_, rfl, rfl⟩
    simp [follow, he, hgoal, bind, Except.bind]
  | cons d es ih =>
    obtain ⟨k₁, hk₁, hrest⟩ := h
    obtain ⟨r, hr, hok, hk'⟩ := ih hrest
    -- an earlier record has a smaller number than the goal
    have hne : recorded d ≠ some goal := by
      intro hd
      obtain ⟨hsize, hnum⟩ := Checker.size_visit hk₁
      have hlt : k₁.clauses.size = k₀.clauses.size + 1 := by
        rw [hsize]
        cases d <;> simp [recorded] at hd <;> rfl
      have hle := Event.le_endFrom k₁.clauses.size es
      rw [← hrest.size] at hle
      rw [← (Checker.size_visit he).2 goal hgoal, hlt, ← hnum goal hd] at hle
      exact Nat.not_succ_le_self goal hle
    refine ⟨⟨.accepted d (derived k₁ d) :: r.visited, r.checker, r.outcome⟩, ?_, hok, hk'⟩
    rw [List.cons_append, follow, hk₁]
    simp [hne, hr, bind, Except.bind]

/-- A log that refutes passes the check. -/
theorem Refutes.check (h : g.Refutes id) (hnext : g.nextId < Event.distanceLimit) :
    ∃ r, g.checkReplay (some id) = .ok r ∧ r.outcome = .ok () := by
  obtain ⟨es, e, k, ⟨hrec, hvisits⟩, hid, c, hc, hmem⟩ := h
  obtain ⟨k₁, hk₁, k₂, hk₂, hlast⟩ := Checker.visits_append.1 hvisits
  obtain rfl : k = k₂ := hlast
  obtain ⟨r, hr, hok, rfl⟩ := follow_of_visits none hk₁ hk₂ hid
  obtain rfl : c = [] := List.eq_nil_iff_forall_not_mem.2 fun l hl => List.not_mem_nil ((hmem l).1 hl)
  refine ⟨{ r with outcome := judge id r }, ?_, ?_⟩
  · simp [checkReplay, traverse, target, hrec.decode_eq hnext, hr, bind, Except.bind]
  · simp [judge, hok, hc, bind, Except.bind]

end Log
end Cdcl
