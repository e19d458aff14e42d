import Cdcl.Certificate
import Cdcl.Proofs.Analysis
import Cdcl.Proofs.Kernel.Representation
import Cdcl.Proofs.Resolution.Replaying

/-!
# What a certificate records

`Certificate.Backs` says that the log of a certificate is accepted by a checker, that the clause of
every stored constraint and the unit clause of every noted variable are available under numbers of
their own, and that a noted variable is fixed at level 0. `Certificate.Offers` adds a clause that
nothing uses yet: every derivation gives one, and storing it or noting it as a unit uses it up.
-/

namespace Cdcl.Certificate
set_option autoImplicit false

open Log (recorded)

/-- The clauses of the stored constraints and the units of fixed variables are available. -/
structure Backs (c : Certificate) (t : Trail) (s : Store) (es : List Event) (q : Checker) :
    Prop where
  accepted : c.log.Accepted es q
  stored : ∀ ref e, s.get? ref = some e → e.constraint.degree = 1 ∧
    ∃ id, e.clauseId = some id ∧ q.Shows id e.constraint.literals
  units : ∀ v id, c.units.getD v none = some id →
    ∃ negative, t.holds ⟨v, negative⟩ = true ∧ t.levelOf v = 0 ∧ q.Shows id [⟨v, negative⟩]
  apart : ∀ ref ref' e e', s.get? ref = some e → s.get? ref' = some e' →
    e.clauseId = e'.clauseId → ref = ref'
  unit_apart : ∀ ref e v id, s.get? ref = some e → c.units.getD v none = some id →
    e.clauseId ≠ some id

/-- The certificate backs a trail and a store. -/
def Certifies (c : Certificate) (t : Trail) (s : Store) : Prop := ∃ es q, c.Backs t s es q

/-- No stored constraint and no unit has this number. -/
def Free (c : Certificate) (s : Store) (id : ClauseId) : Prop :=
  (∀ ref e, s.get? ref = some e → e.clauseId ≠ some id) ∧ ∀ v, c.units.getD v none ≠ some id

/-- The last record is a clause of these literals that nothing uses yet. -/
def Offers (c : Certificate) (t : Trail) (s : Store) (id : ClauseId) (ls : List Literal) : Prop :=
  ∃ es e q, c.Backs t s (es ++ [e]) q ∧ recorded e = some id ∧ q.Shows id ls ∧ c.Free s id

variable {c c' : Certificate} {t t' : Trail} {s s' : Store} {es : List Event} {q q' : Checker}
  {id start : ClauseId} {l : Literal} {ls : List Literal} {v : Var} {vs : List Var} {ref : ClauseRef}
  {e : Stored} {steps more : List ResolutionStep}

theorem certifies_empty (h : ∀ ref, s.get? ref = none) : Certifies {} t s := by
  have hno : ∀ {P : Prop} {ref : ClauseRef} {e : Stored}, s.get? ref = some e → P :=
    fun he => absurd ((h _).symm.trans he) (by simp)
  exact ⟨[], ⟨#[]⟩, Log.Accepted.empty, fun _ _ he => hno he,
    fun v id hid => absurd hid (by simp [VarMap.getD, VarMap.empty]), fun _ _ _ _ he => hno he,
    fun _ _ _ _ he => hno he⟩

theorem Offers.certifies (h : c.Offers t s id ls) : c.Certifies t s := by
  obtain ⟨es, e, q, hb, -⟩ := h
  exact ⟨es ++ [e], q, hb⟩

theorem Offers.refutes (h : c.Offers t s id []) : c.log.Refutes id := by
  obtain ⟨es, e, q, hb, he, hq, -⟩ := h
  exact ⟨es, e, q, hb.accepted, he, hq⟩

theorem Offers.congr {ms : List Literal} (h : c.Offers t s id ls) (hls : ∀ l, l ∈ ls ↔ l ∈ ms) :
    c.Offers t s id ms := by
  obtain ⟨es, e, q, hb, he, hq, hfree⟩ := h
  exact ⟨es, e, q, hb, he, hq.congr hls, hfree⟩

/-! ## Changes of the solver -/

/-- Every entry of the later store has the key and the number of an earlier one. -/
def Covered (s s' : Store) : Prop :=
  ∀ ref e', s'.get? ref = some e' → ∃ e, s.get? ref = some e ∧ e'.face = e.face

theorem Covered.of_alike (h : s.Alike s') : Covered s s' := by
  intro ref e' he'
  obtain ⟨e, he, hface⟩ := h.symm.get? he'
  exact ⟨e, he, hface.symm⟩

theorem Backs.mono (h : c.Backs t s es q) (ht : t.Retains t') (hs : Covered s s') :
    c.Backs t' s' es q where
  accepted := h.accepted
  stored := by
    intro ref e' he'
    obtain ⟨e, he, hface⟩ := hs ref e' he'
    obtain ⟨hd, id, hid, hq⟩ := h.stored ref e he
    have hkey : e'.constraint.key = e.constraint.key := congrArg Prod.fst hface
    refine ⟨(Constraint.degree_of_key_eq hkey).trans hd, id, ?_, hq.congr fun l => ?_⟩
    · exact (congrArg (fun f => f.2.2) hface).trans hid
    · exact (Constraint.perm_of_key_eq hkey).mem_iff.symm
  units := by
    intro v id hid
    obtain ⟨negative, hl, hlev, hq⟩ := h.units v id hid
    obtain ⟨hl', hlev'⟩ := ht _ hl hlev
    exact ⟨negative, hl', hlev', hq⟩
  apart := by
    intro ref ref' e e' he he' hid
    obtain ⟨d, hd, hface⟩ := hs ref e he
    obtain ⟨d', hd', hface'⟩ := hs ref' e' he'
    refine h.apart ref ref' d d' hd hd' ?_
    have hdid : e.clauseId = d.clauseId := congrArg (fun f => f.2.2) hface
    have hdid' : e'.clauseId = d'.clauseId := congrArg (fun f => f.2.2) hface'
    rw [← hdid, ← hdid', hid]
  unit_apart := by
    intro ref e v id he hid
    obtain ⟨d, hd, hface⟩ := hs ref e he
    have hdid : e.clauseId = d.clauseId := congrArg (fun f => f.2.2) hface
    rw [hdid]
    exact h.unit_apart ref d v id hd hid

theorem Certifies.mono (h : c.Certifies t s) (ht : t.Retains t') (hs : Covered s s') :
    c.Certifies t' s' := by
  obtain ⟨es, q, hb⟩ := h
  exact ⟨es, q, hb.mono ht hs⟩

theorem Offers.mono (h : c.Offers t s id ls) (ht : t.Retains t') (hs : Covered s s') :
    c.Offers t' s' id ls := by
  obtain ⟨es, e, q, hb, he, hq, hfree, hunits⟩ := h
  refine ⟨es, e, q, hb.mono ht hs, he, hq, fun ref e' he' => ?_, hunits⟩
  obtain ⟨d, hd, hface⟩ := hs ref e' he'
  have hdid : e'.clauseId = d.clauseId := congrArg (fun f => f.2.2) hface
  rw [hdid]
  exact hfree ref d hd

theorem Offers.insert (h : c.Offers t s id e.constraint.literals) (hid : e.clauseId = some id)
    (hd : e.constraint.degree = 1) : c.Certifies t (s.insert e).2 := by
  obtain ⟨es, ev, q, hb, -, hq, hfree, hunits⟩ := h
  refine ⟨es ++ [ev], q, hb.accepted, fun r d hr => ?_, hb.units, fun r r' d d' hr hr' hdd => ?_,
    fun r d v i hr hv => ?_⟩
  · rw [Store.get?_insert] at hr
    split at hr
    · obtain rfl := Option.some.inj hr
      exact ⟨hd, id, hid, hq⟩
    · exact hb.stored r d hr
  · rw [Store.get?_insert] at hr hr'
    split at hr
    · next h1 =>
      obtain rfl := Option.some.inj hr
      split at hr'
      · next h2 => rw [h1, h2]
      · exact absurd (hdd.symm.trans hid) (hfree r' d' hr')
    · split at hr'
      · obtain rfl := Option.some.inj hr'
        exact absurd (hdd.trans hid) (hfree r d hr)
      · exact hb.apart r r' d d' hr hr' hdd
  · rw [Store.get?_insert] at hr
    split at hr
    · obtain rfl := Option.some.inj hr
      rw [hid]
      intro heq
      exact hunits v (Option.some.inj heq ▸ hv)
    · exact hb.unit_apart r d v i hr hv

/-- The offered clause is noted as the unit of a variable. -/
theorem Offers.setUnit {m : Mark} (h : c.Offers t s id [l]) (hm : t.mark? l.var = some m)
    (hneg : m.negative = l.negative) (hlev : m.level = 0)
    (hset : c.setUnit l.var (some id) = .ok c') :
    c'.Certifies t s ∧ c'.empty = c.empty ∧ c'.log = c.log := by
  obtain ⟨es, ev, q, hb, -, hq, hfree, -⟩ := h
  obtain ⟨units, hunits, hset⟩ := bind_eq_ok_iff.1 hset
  obtain rfl := Except.ok.inj hset
  obtain ⟨hcell, rfl⟩ := VarMap.set_eq_ok hunits
  have hcase : ∀ v i, (c.units.put l.var (some id)).getD v none = some i →
      (v = l.var ∧ i = id) ∨ c.units.getD v none = some i := by
    intro v i hi
    rw [VarMap.getD_put] at hi
    split at hi
    · next hv => exact Or.inl ⟨hv.1, (Option.some.inj hi).symm⟩
    · exact Or.inr hi
  refine ⟨⟨es ++ [ev], q, hb.accepted, hb.stored, fun v i hi => ?_, hb.apart,
    fun r d v i hr hi => ?_⟩, rfl, rfl⟩
  · rcases hcase v i hi with ⟨rfl, rfl⟩ | hi
    · exact ⟨l.negative, Trail.holds_of_mark hm hneg, (Trail.levelOf_eq hm).trans hlev, hq⟩
    · exact hb.units v i hi
  · rcases hcase v i hi with ⟨-, rfl⟩ | hi
    · exact hfree r d hr
    · exact hb.unit_apart r d v i hr hi

theorem growTo_eq_ok {vars : Nat} (hg : c.growTo vars = .ok c') :
    (∀ v, c'.units.getD v none = c.units.getD v none) ∧ c'.empty = c.empty ∧ c'.log = c.log := by
  obtain ⟨units, hunits, hg⟩ := bind_eq_ok_iff.1 hg
  obtain rfl := Except.ok.inj hg
  exact ⟨(VarMap.grow_eq_ok hunits).1, rfl, rfl⟩

theorem Certifies.growTo {vars : Nat} (h : c.Certifies t s) (hg : c.growTo vars = .ok c') :
    c'.Certifies t s := by
  obtain ⟨es, q, hb⟩ := h
  obtain ⟨hsame, -, hlog⟩ := growTo_eq_ok hg
  exact ⟨es, q, hlog ▸ hb.accepted, hb.stored,
    fun v i hi => hb.units v i ((hsame v).symm.trans hi), hb.apart,
    fun r d v i hr hi => hb.unit_apart r d v i hr ((hsame v).symm.trans hi)⟩

/-- A stored constraint is removed and its clause is deleted. -/
theorem Certifies.delete (h : c.Certifies t s) (he : s.get? ref = some e)
    (hdel : c.delete e.clauseId = .ok c') :
    c'.Certifies t (s.erase ref) ∧ c'.empty = c.empty := by
  obtain ⟨es, q, hb⟩ := h
  obtain ⟨-, gone, hgone, -⟩ := hb.stored ref e he
  rw [hgone] at hdel
  obtain ⟨log, hlog, hdel⟩ := bind_eq_ok_iff.1 hdel
  obtain rfl := Except.ok.inj hdel
  obtain ⟨q', hacc, hkeep⟩ := hb.accepted.deleted hlog
  have hold : ∀ {r d}, (s.erase ref).get? r = some d → r ≠ ref ∧ s.get? r = some d := by
    intro r d hr
    rw [Store.get?_erase] at hr
    split at hr
    · simp at hr
    · next hne => exact ⟨hne, hr⟩
  refine ⟨⟨_, q', hacc, fun r d hr => ?_, fun v i hi => ?_, fun r r' d d' hr hr' => ?_,
    fun r d v i hr => ?_⟩, rfl⟩
  · obtain ⟨hne, hr⟩ := hold hr
    obtain ⟨hd, id, hid, hq⟩ := hb.stored r d hr
    refine ⟨hd, id, hid, hkeep id _ (fun heq => hne ?_) hq⟩
    exact hb.apart r ref d e hr he (by rw [hid, hgone, heq])
  · obtain ⟨negative, hl, hlev, hq⟩ := hb.units v i hi
    refine ⟨negative, hl, hlev, hkeep i _ (fun heq => ?_) hq⟩
    exact hb.unit_apart ref e v i he hi (hgone.trans (congrArg some heq.symm))
  · exact hb.apart r r' d d' (hold hr).2 (hold hr').2
  · exact hb.unit_apart r d v i (hold hr).2

/-! ## Deriving clauses -/

/-- A later log with all clauses of the earlier one backs the same. -/
theorem Backs.record {es' : List Event} {log : Log} (h : c.Backs t s es q)
    (hacc : log.Accepted es' q') (hq : q.Keeps q') : Backs { c with log } t s es' q' where
  accepted := hacc
  stored := by
    intro ref e he
    obtain ⟨hd, id, hid, hshow⟩ := h.stored ref e he
    exact ⟨hd, id, hid, hshow.keeps hq⟩
  units := by
    intro v id hid
    obtain ⟨negative, hl, hlev, hshow⟩ := h.units v id hid
    exact ⟨negative, hl, hlev, hshow.keeps hq⟩
  apart := h.apart
  unit_apart := h.unit_apart

theorem Backs.free (h : c.Backs t s es q) (hid : c.log.nextId ≤ id) : c.Free s id := by
  have hlt : ∀ {i ls}, q.Shows i ls → i ≠ id := by
    intro i ls hq heq
    have := hq.lt_size
    rw [h.accepted.size, heq] at this
    exact absurd this (Nat.not_lt.2 hid)
  refine ⟨fun ref e he heq => ?_, fun v heq => ?_⟩
  · obtain ⟨-, i, hi, hq⟩ := h.stored ref e he
    exact hlt hq (Option.some.inj (hi.symm.trans heq))
  · obtain ⟨m, -, -, hq⟩ := h.units v id heq
    exact hlt hq rfl

/-- A chain without steps changes nothing, any other one offers the clause that it leads to. -/
theorem Backs.derive (h : c.Backs t s es q) (hsteps : ∀ s ∈ steps, s.1.id ≠ 0)
    (hd : q.Derives start steps ls) (hc : c.derive start steps = .ok (id, c')) :
    c'.empty = c.empty ∧ ((steps = [] ∧ id = start ∧ c'.units = c.units ∧ c'.Backs t s es q) ∨
      c'.Offers t s id ls) := by
  obtain ⟨⟨i, log⟩, hlog, hc⟩ := bind_eq_ok_iff.1 hc
  obtain ⟨rfl, rfl⟩ := Prod.mk.inj (Except.ok.inj hc)
  refine ⟨rfl, ?_⟩
  rcases h.accepted.derive hsteps hd hlog with ⟨hnil, hid, hacc⟩ | ⟨rfl, e, q', hacc, he, hq, hshow⟩
  · exact Or.inl ⟨hnil, hid, rfl, h.record hacc fun _ _ hc => hc⟩
  · exact Or.inr ⟨es, e, q', h.record hacc hq, he, hshow, h.free (Nat.le_refl _)⟩

theorem Backs.offers (h : c.Backs t s es q) (hsteps : ∀ s ∈ steps, s.1.id ≠ 0) (hne : steps ≠ [])
    (hd : q.Derives start steps ls) (hc : c.derive start steps = .ok (id, c')) :
    c'.Offers t s id ls ∧ c'.empty = c.empty := by
  obtain ⟨hempty, ⟨hnil, -⟩ | ho⟩ := h.derive hsteps hd hc
  · exact absurd hnil hne
  · exact ⟨ho, hempty⟩

theorem idOf_eq_ok (h : idOf e = .ok id) : e.clauseId = some id := by
  unfold idOf at h
  split at h
  · next i hi => rw [hi, Except.ok.inj h]
  · exact absurd h (by simp)

theorem unitSteps_eq_ok (h : c.unitSteps vs = .ok more) :
    more.map Prod.fst = vs ∧ ∀ s ∈ more, c.units.getD s.1 none = some s.2 := by
  induction vs generalizing more with
  | nil =>
    obtain rfl := Except.ok.inj h
    exact ⟨rfl, by simp⟩
  | cons v vs ih =>
    obtain ⟨id, hid, h⟩ := bind_eq_ok_iff.1 h
    obtain ⟨rest, hrest, h⟩ := bind_eq_ok_iff.1 h
    obtain rfl := Except.ok.inj h
    obtain ⟨hvs, hunits⟩ := ih hrest
    obtain ⟨o, ho, hid⟩ := bind_eq_ok_iff.1 hid
    cases o with
    | none => exact absurd hid (by simp)
    | some i =>
      obtain rfl := Except.ok.inj hid
      refine ⟨by rw [List.map_cons, hvs], List.forall_mem_cons.2 ⟨?_, hunits⟩⟩
      exact VarMap.getD_of_get ho

/-- The units of false literals are available, so a chain can remove these literals. -/
theorem Backs.units_derive (h : c.Backs t s es q) (ht : t.Valid) (hd : q.Derives start steps ls)
    (hmore : c.unitSteps vs = .ok more) (hnodup : vs.Nodup) (hvs : ∀ v ∈ vs, ∃ l ∈ ls, l.var = v)
    (hls : ∀ l ∈ ls, l.var ∈ vs → t.holds (-l) = true) :
    q.Derives start (steps ++ more) (ls.filter fun l => l.var ∉ vs) ∧
      ∀ s ∈ more, s.1.id ≠ 0 := by
  obtain ⟨rfl, hunits⟩ := unitSteps_eq_ok hmore
  refine ⟨hd.units hnodup (fun x hx => ?_) fun j hj l hl hv hin => ?_, fun x hx => ?_⟩
  · obtain ⟨l, hl, hv⟩ := hvs x.1 (List.mem_map_of_mem hx)
    obtain ⟨negative, hx', -, hq⟩ := h.units x.1 x.2 (hunits x hx)
    have hfalse := hls l hl (hv ▸ List.mem_map_of_mem hx)
    have heq : (⟨x.1, negative⟩ : Literal) = -l := ht.eq_of_holds hx' hfalse hv.symm
    exact ⟨l, hl, hv, heq ▸ hq⟩
  · have hneg := ht.eq_of_holds (hls j hj hin) (hls l hl (hv ▸ hin)) hv
    simpa using congrArg (- ·) hneg
  · obtain ⟨negative, hx', -⟩ := h.units x.1 x.2 (hunits x hx)
    have := (ht.names_of_holds hx').1
    exact Nat.one_le_iff_ne_zero.1 this

/-! ## Clauses of the formula -/

theorem mem_falsified : l ∈ falsified ls t ↔ l ∈ ls ∧ t.holds (-l) = true := List.mem_filter

theorem Offers.withEmpty {o : Option ClauseId} (h : c.Offers t s id ls) :
    Offers { c with empty := o } t s id ls := by
  obtain ⟨es, e, q, hb, he, hq, hfree⟩ := h
  exact ⟨es, e, q, ⟨hb.accepted, hb.stored, hb.units, hb.apart, hb.unit_apart⟩, he, hq, hfree⟩

theorem nodup_falsified (ht : t.Valid) :
    ((Literal.canonical (falsified ls t)).map Literal.var).Nodup := by
  have hne : ∀ {l m : Literal}, l.code < m.code → l ≠ m := by
    rintro l m hlt rfl
    exact Nat.lt_irrefl _ hlt
  have hnodup : (Literal.canonical (falsified ls t)).Nodup :=
    (Literal.ascending_canonical _).imp hne
  refine hnodup.map_on fun j hj l hl hv => ?_
  rw [Literal.mem_canonical, mem_falsified] at hj hl
  have hneg := ht.eq_of_holds hj.2 hl.2 hv
  simpa using congrArg (- ·) hneg

/-- A clause of the formula is offered without its false literals. -/
theorem Backs.newClause (h : c.Backs t s es q) (ht : t.Valid)
    (hfit : ∀ l ∈ ls, Event.LiteralFits l) (hopen : ∀ l ∈ ls, t.holds l = false)
    (hn : c.newClause ls t = .ok (id, c')) :
    c'.Offers t s id (ls.filter fun l => !t.holds (-l)) ∧
      c'.empty = if ls.all fun l => t.holds (-l) then some id else c.empty := by
  have hb : Backs { c with log := (c.log.addRoot ls).2 } t s _ _ :=
    h.record (h.accepted.addRoot hfit) Log.keeps_push
  have hshow : Checker.Shows ⟨q.clauses.push (some (Literal.canonical ls))⟩ c.log.nextId ls :=
    h.accepted.size ▸ Log.shows_push fun l => Literal.mem_canonical
  obtain ⟨more, hmore, hn⟩ := bind_eq_ok_iff.1 hn
  obtain ⟨⟨i, c₁⟩, hc₁, hn⟩ := bind_eq_ok_iff.1 hn
  obtain ⟨rfl, rfl⟩ := Prod.mk.inj (Except.ok.inj hn)
  have hvars : ∀ v, v ∈ (Literal.canonical (falsified ls t)).map Literal.var ↔
      ∃ l ∈ ls, t.holds (-l) = true ∧ l.var = v := by
    intro v
    simp only [List.mem_map, Literal.mem_canonical, mem_falsified, and_assoc]
  -- the other literal of a false one would be true
  have hsame : ∀ j ∈ ls, ∀ l ∈ ls, t.holds (-j) = true → j.var = l.var → t.holds (-l) = true := by
    intro j hj l hl hfalse hv
    rcases Literal.eq_or_eq_neg hv with rfl | rfl
    · exact hfalse
    · rw [Literal.neg_neg, hopen l hl] at hfalse
      exact absurd hfalse (by simp)
  have hfalse : ∀ l ∈ ls,
      l.var ∈ (Literal.canonical (falsified ls t)).map Literal.var ↔ t.holds (-l) = true := by
    intro l hl
    rw [hvars]
    constructor
    · rintro ⟨j, hj, hjfalse, hv⟩
      exact hsame j hj l hl hjfalse hv
    · intro hlfalse
      exact ⟨l, hl, hlfalse, rfl⟩
  obtain ⟨hd, hids⟩ := hb.units_derive ht (Checker.Derives.of_shows hshow) hmore
    (nodup_falsified ht)
    (fun v hv => by
      obtain ⟨l, hl, -, hlv⟩ := (hvars v).1 hv
      exact ⟨l, hl, hlv⟩) fun l hl => (hfalse l hl).1
  have hleft : ∀ l, l ∈ ls.filter (fun l =>
      decide (l.var ∉ (Literal.canonical (falsified ls t)).map Literal.var)) ↔
      l ∈ ls.filter fun l => !t.holds (-l) := by
    intro l
    simp only [List.mem_filter, decide_eq_true_eq, Bool.not_eq_true']
    refine and_congr_right fun hl => ?_
    rw [hfalse l hl, Bool.not_eq_true]
  obtain ⟨hempty, hcases⟩ := hb.derive hids hd hc₁
  have ho : c₁.Offers t s i (ls.filter fun l => !t.holds (-l)) := by
    rcases hcases with ⟨rfl, rfl, hunits, hb₁⟩ | ho
    · -- nothing is resolved away, and the root itself is offered
      have hfree := h.free (Nat.le_refl c.log.nextId)
      exact ⟨es, _, _, hb₁, rfl, hd.shows.congr hleft, hfree.1, hunits ▸ hfree.2⟩
    · exact ho.congr hleft
  split
  · exact ⟨ho.withEmpty, rfl⟩
  · exact ⟨ho, hempty⟩

/-! ## Literals forced at level 0 -/

section Kernel

variable {k : Kernel}

/-- The reason of a forced literal, resolved with the units of its other literals, is the unit of the
literal. -/
theorem Certifies.recordUnit (h : c.Certifies k.trail k.store) (hk : k.Sound)
    (hlev : k.trail.level = 0) (hl : k.trail.holds l = true)
    (hr : c.recordUnit k.trail k.store l = .ok c') :
    c'.Certifies k.trail k.store ∧ c'.empty = c.empty := by
  obtain ⟨o, ho, hr⟩ := bind_eq_ok_iff.1 hr
  cases o with
  | some i =>
    obtain rfl := Except.ok.inj hr
    exact ⟨h, rfl⟩
  | none =>
    dsimp only at hr
    split at hr
    · exact absurd hr (by simp)
    · next ref href =>
      obtain ⟨e, he, hr⟩ := bind_eq_ok_iff.1 hr
      obtain ⟨start, hstart, hr⟩ := bind_eq_ok_iff.1 hr
      obtain ⟨more, hmore, hr⟩ := bind_eq_ok_iff.1 hr
      obtain ⟨⟨id, c₁⟩, hc₁, hset⟩ := bind_eq_ok_iff.1 hr
      rw [Store.get_eq_ok] at he
      obtain ⟨m, hm, hreason⟩ := hk.trail.reasonOf_eq_some href
      obtain ⟨e', he', hforces⟩ := hk.reasons hm hreason
      obtain rfl := Option.some.inj (he'.symm.trans he)
      have hself : (⟨l.var, m.negative⟩ : Literal) = l :=
        hk.trail.eq_of_holds (Trail.holds_mk hm) hl rfl
      rw [hself] at hforces
      have hvalid := hk.shape he
      have hmem : l ∈ e'.constraint.literals := Constraint.mem_literals.2 (Or.inl hforces.watched)
      obtain ⟨es, q, hb⟩ := h
      obtain ⟨hdegree, i, hi, hshow⟩ := hb.stored ref e' he
      have hi' : i = start := Option.some.inj (hi.symm.trans (idOf_eq_ok hstart))
      have hothers : ∀ v, v ∈ (e'.constraint.literals.filter fun j => j.var != l.var).map
          Literal.var ↔ (∃ j ∈ e'.constraint.literals, j.var = v) ∧ v ≠ l.var := by
        intro v
        simp only [List.mem_map, List.mem_filter, bne_iff_ne]
        constructor
        · rintro ⟨j, ⟨hj, hne⟩, rfl⟩
          exact ⟨⟨j, hj, rfl⟩, hne⟩
        · rintro ⟨⟨j, hj, rfl⟩, hne⟩
          exact ⟨j, ⟨hj, hne⟩, rfl⟩
      obtain ⟨hd, hids⟩ := hb.units_derive hk.trail (Checker.Derives.of_shows hshow) hmore
        (hvalid.distinct.sublist (List.filter_sublist.map _))
        (fun v hv => ((hothers v).1 hv).1) fun j hj hv => by
          have hne : j ≠ l := fun heq => ((hothers _).1 hv).2 (congrArg Literal.var heq)
          obtain ⟨n, hn, hneg, -⟩ := (Constraint.falseBefore_iff hk.trail).1
            (hforces.falseBefore_of_clause hk.trail hdegree hj hne hl)
          exact Trail.holds_neg_of_mark hn hneg
      have hne : more ≠ [] := by
        obtain ⟨j, hj, hjv⟩ := hvalid.exists_other l.var
        have hin := (hothers j.var).2 ⟨⟨j, hj, rfl⟩, hjv⟩
        rw [← (unitSteps_eq_ok hmore).1] at hin
        rintro rfl
        exact absurd hin (by simp)
      rw [List.nil_append, hi'] at hd
      obtain ⟨ho₁, hempty⟩ := hb.offers hids hne hd hc₁
      have hunit : c₁.Offers k.trail k.store id [l] := by
        refine ho₁.congr fun j => ?_
        rw [List.mem_filter, List.mem_singleton, decide_eq_true_eq, hothers]
        constructor
        · rintro ⟨hj, hno⟩
          refine hvalid.eq_of_var_eq hj hmem ?_
          by_contra hjv
          exact hno ⟨⟨j, hj, rfl⟩, hjv⟩
        · rintro rfl
          exact ⟨hmem, fun hin => hin.2 rfl⟩
      have hzero : m.level = 0 := Nat.le_zero.1 (hlev ▸ hk.trail.level_le hm)
      obtain ⟨hcert, hempty', -⟩ := hunit.setUnit hm (congrArg Literal.negative hself) hzero hset
      exact ⟨hcert, hempty'.trans hempty⟩

theorem Certifies.recordUnits (h : c.Certifies k.trail k.store) (hk : k.Sound)
    (hlev : k.trail.level = 0) (hls : ∀ l ∈ ls, k.trail.holds l = true)
    (hr : c.recordUnits k.trail k.store ls = .ok c') :
    c'.Certifies k.trail k.store ∧ c'.empty = c.empty := by
  induction ls generalizing c with
  | nil =>
    obtain rfl := Except.ok.inj hr
    exact ⟨h, rfl⟩
  | cons l ls ih =>
    obtain ⟨hl, hls'⟩ := List.forall_mem_cons.1 hls
    obtain ⟨c₁, hc₁, hr⟩ := bind_eq_ok_iff.1 hr
    obtain ⟨h₁, hempty₁⟩ := h.recordUnit hk hlev hl hc₁
    obtain ⟨h', hempty⟩ := ih h₁ hls' hr
    exact ⟨h', hempty.trans hempty₁⟩

theorem Certifies.recordRoot (h : c.Certifies k.trail k.store) (hk : k.Sound)
    (hlev : k.trail.level = 0) (hr : c.recordRoot k.trail k.store = .ok c') :
    c'.Certifies k.trail k.store ∧ c'.empty = c.empty := by
  obtain ⟨c₁, hc₁, hr⟩ := bind_eq_ok_iff.1 hr
  obtain rfl := Except.ok.inj hr
  have hall : ∀ l ∈ k.trail.root.toList.drop c.cursor, k.trail.holds l = true := by
    intro l hl
    rw [Trail.root_of_level_zero hlev] at hl
    exact hk.trail.holds_iff_mem.2 (List.mem_of_mem_drop hl)
  obtain ⟨⟨es, q, hb⟩, hempty⟩ := h.recordUnits hk hlev hall hc₁
  exact ⟨⟨es, q, hb.accepted, hb.stored, hb.units, hb.apart, hb.unit_apart⟩, hempty⟩

/-- A clause that is violated at level 0, resolved with the units of its literals, is empty. -/
theorem Certifies.deriveEmpty (h : c.Certifies k.trail k.store) (hk : k.Clash ref)
    (he : k.store.get? ref = some e) (hd : c.deriveEmpty e = .ok (id, c')) :
    c'.empty = some id ∧ c'.Offers k.trail k.store id [] := by
  obtain ⟨start, hstart, hd⟩ := bind_eq_ok_iff.1 hd
  obtain ⟨more, hmore, hd⟩ := bind_eq_ok_iff.1 hd
  obtain ⟨⟨i, c₁⟩, hc₁, hd⟩ := bind_eq_ok_iff.1 hd
  obtain ⟨rfl, rfl⟩ := Prod.mk.inj (Except.ok.inj hd)
  obtain ⟨e', he', hviolated, -⟩ := hk.violated
  obtain rfl := Option.some.inj (he'.symm.trans he)
  have hvalid := hk.sound.shape he
  obtain ⟨es, q, hb⟩ := h
  obtain ⟨hdegree, i', hi', hshow⟩ := hb.stored ref e' he
  have hid : i' = start := Option.some.inj (hi'.symm.trans (idOf_eq_ok hstart))
  obtain ⟨hd', hids⟩ := hb.units_derive hk.sound.trail (Checker.Derives.of_shows hshow) hmore
    hvalid.distinct (fun v hv => List.mem_map.1 hv) fun j hj _ => hviolated.falsified hdegree hj
  have hne : more ≠ [] := by
    obtain ⟨j, hj, -⟩ := hvalid.exists_other ⟨0⟩
    have hin := List.mem_map_of_mem (f := Literal.var) hj
    rw [← (unitSteps_eq_ok hmore).1] at hin
    rintro rfl
    exact absurd hin (by simp)
  rw [List.nil_append, hid] at hd'
  obtain ⟨ho, -⟩ := hb.offers hids hne hd' hc₁
  have hempty : c₁.Offers k.trail k.store i [] := ho.congr fun j => by
    rw [List.mem_filter, decide_eq_true_eq]
    exact ⟨fun hj => absurd (List.mem_map_of_mem hj.1) hj.2, fun hj => absurd hj List.not_mem_nil⟩
  exact ⟨rfl, hempty.withEmpty⟩

/-! ## Learnt clauses -/

theorem resolveIds_concat {steps : List (Var × ClauseRef)} (h : resolveIds s steps = .ok more)
    (he : s.get? ref = some e) (hid : e.clauseId = some id) :
    resolveIds s (steps ++ [(v, ref)]) = .ok (more ++ [(v, id)]) := by
  induction steps generalizing more with
  | nil =>
    obtain rfl := Except.ok.inj h
    simp [resolveIds, Store.get_eq_ok.2 he, idOf, hid, bind, Except.bind]
  | cons x steps ih =>
    obtain ⟨w, r⟩ := x
    obtain ⟨d, hd, h⟩ := bind_eq_ok_iff.1 h
    obtain ⟨i, hi, h⟩ := bind_eq_ok_iff.1 h
    obtain ⟨rest, hrest, h⟩ := bind_eq_ok_iff.1 h
    obtain rfl := Except.ok.inj h
    rw [List.cons_append, resolveIds, hd]
    simp [hi, ih hrest, bind, Except.bind]

/-- The false literals of the variables that an analysis has met and not resolved. -/
def blamed (t : Trail) (seen : VarMap Bool) : List Literal :=
  (t.literals.toList.filter fun l => seen.getD l.var false).map (- ·)

theorem mem_blamed {seen : VarMap Bool} (ht : t.Valid) :
    l ∈ blamed t seen ↔ t.holds (-l) = true ∧ Analysis.Seen seen l.var := by
  unfold blamed Analysis.Seen
  rw [List.mem_map]
  constructor
  · rintro ⟨j, hj, rfl⟩
    rw [List.mem_filter, ← ht.holds_iff_mem] at hj
    rw [Literal.neg_neg]
    exact hj
  · intro hl
    refine ⟨-l, ?_, Literal.neg_neg l⟩
    rw [List.mem_filter, ← ht.holds_iff_mem]
    exact hl

/-- The chain recorded so far leads to the false literals that were met and not resolved. -/
def Follows (k : Kernel) (q : Checker) (start : ClauseId) (p : Analysis.Progress) : Prop :=
  ∃ out, resolveIds k.store p.steps = .ok out ∧ (∀ s ∈ out, s.1.id ≠ 0) ∧
    out.length = p.steps.length ∧ q.Derives start out (blamed k.trail p.seen)

theorem Backs.follows_start {conflict : ClauseRef} {p : Analysis.Progress} {why : List Literal}
    (h : c.Backs k.trail k.store es q) (hk : k.Sound) (he : k.store.get? conflict = some e)
    (hid : e.clauseId = some start) (hexplains : e.constraint.ExplainsViolated k.trail why)
    (hviolated : e.constraint.Violated k.trail)
    (hseen : ∀ v, Analysis.Seen p.seen v ↔ ∃ u ∈ why, u.var = v) (hsteps : p.steps = []) :
    Follows k q start p := by
  obtain ⟨hdegree, i, hi, hshow⟩ := h.stored conflict e he
  obtain rfl : i = start := Option.some.inj (hi.symm.trans hid)
  refine ⟨[], by rw [hsteps]; rfl, by simp, by simp [hsteps],
    (Checker.Derives.of_shows hshow).congr fun j => ?_⟩
  rw [mem_blamed hk.trail, hseen]
  constructor
  · intro hj
    have hfalse := hviolated.falsified hdegree hj
    exact ⟨hfalse, -j, hexplains.complete j hj hfalse, rfl⟩
  · rintro ⟨hfalse, u, hu, hv⟩
    obtain ⟨hmem, hholds⟩ := hexplains.member u hu
    rw [hk.trail.eq_of_holds hholds hfalse hv, Literal.neg_neg] at hmem
    exact hmem

theorem Backs.follows_step {p p' : Analysis.Progress} {why : List Literal}
    (h : c.Backs k.trail k.store es q) (hk : k.Sound) (hp : Follows k q start p)
    (hr : Analysis.Resolves k p p' l ref e why) : Follows k q start p' := by
  obtain ⟨out, hout, hids, hlen, hd⟩ := hp
  obtain ⟨hdegree, i, hi, hshow⟩ := h.stored ref e hr.stored
  obtain ⟨m, hm, hneg⟩ := hk.trail.holds_iff.1 hr.holds
  have hvalid := hk.shape hr.stored
  have hmem : l ∈ e.constraint.literals := Constraint.mem_literals.2 (Or.inl hr.forces.watched)
  refine ⟨out ++ [(l.var, i)], ?_, ?_, ?_, ?_⟩
  · rw [hr.steps]
    exact resolveIds_concat hout hr.stored hi
  · intro x hx
    rcases List.mem_append.1 hx with hx | hx
    · exact hids x hx
    · rw [List.mem_singleton.1 hx]
      exact Nat.one_le_iff_ne_zero.1 (hk.trail.named hm).1
  · rw [hr.steps, List.length_append, List.length_append, hlen, List.length_singleton,
      List.length_singleton]
  · refine hd.step (l := -l) hshow ((mem_blamed hk.trail).2 ⟨?_, hr.met⟩) ?_ ?_ ?_ fun j => ?_
    · rw [Literal.neg_neg]
      exact hr.holds
    · rw [Literal.neg_neg]
      exact hmem
    · intro j hj hv
      have hj' := hk.trail.eq_of_holds ((mem_blamed hk.trail).1 hj).1 hr.holds hv
      rw [← hj', Literal.neg_neg]
    · intro j hj hv
      rw [Literal.neg_neg]
      exact hvalid.eq_of_var_eq hj hmem hv
    · rw [mem_blamed hk.trail, mem_blamed hk.trail, hr.seen]
      constructor
      · rintro ⟨hfalse, ⟨hseen, hne⟩ | ⟨u, hu, hv⟩⟩
        · exact ⟨Or.inl ⟨hfalse, hseen⟩, hne⟩
        · obtain ⟨hin, hbefore⟩ := hr.explains.member u hu
          obtain ⟨n, hn, hneg', hlt⟩ := (Constraint.falseBefore_iff hk.trail).1 hbefore
          have huj : u = -j := by
            refine hk.trail.eq_of_holds ?_ hfalse hv
            rw [← Literal.neg_neg u]
            exact Trail.holds_neg_of_mark hn hneg'
          rw [huj, Literal.neg_neg] at hin
          refine ⟨Or.inr hin, fun hjl => ?_⟩
          -- the literals that forced `l` came before it
          have hul : (-u).var = l.var := hv.trans hjl
          rw [hul, hm] at hn
          obtain rfl := Option.some.inj hn
          rw [Trail.place_eq hm] at hlt
          exact Nat.lt_irrefl _ hlt
      · rintro ⟨⟨hfalse, hseen⟩ | hin, hne⟩
        · exact ⟨hfalse, Or.inl ⟨hseen, hne⟩⟩
        · have hjl : j ≠ l := by
            rintro rfl
            exact hne rfl
          have hbefore := hr.forces.falseBefore_of_clause hk.trail hdegree hin hjl hr.holds
          obtain ⟨n, hn, hneg', -⟩ := (Constraint.falseBefore_iff hk.trail).1 hbefore
          exact ⟨Trail.holds_neg_of_mark hn hneg',
            Or.inr ⟨-j, hr.explains.complete j hin hbefore, rfl⟩⟩

theorem Certifies.deriveLearnt {conflict : ClauseRef} {analyzer analyzer' : Analyzer} {a : Analysis}
    (h : c.Certifies k.trail k.store) (hk : k.Clash conflict)
    (hclear : analyzer.Clear)
    (ha : Analysis.of k.trail k.store analyzer conflict = .ok (a, analyzer'))
    (hne : a.steps ≠ [] ∨ a.fixed ≠ [])
    (hd : c.deriveLearnt k.store conflict a.steps a.fixed = .ok (id, c')) :
    c'.Offers k.trail k.store id a.learnt ∧ c'.empty = c.empty := by
  obtain ⟨e, he, hd⟩ := bind_eq_ok_iff.1 hd
  obtain ⟨start, hstart, hd⟩ := bind_eq_ok_iff.1 hd
  obtain ⟨reasons, hreasons, hd⟩ := bind_eq_ok_iff.1 hd
  obtain ⟨units, hunits, hd⟩ := bind_eq_ok_iff.1 hd
  rw [Store.get_eq_ok] at he
  have hid := idOf_eq_ok hstart
  obtain ⟨es, q, hb⟩ := h
  have hvalid := hk.sound.trail
  obtain ⟨hlearns, -, p, ⟨out, hout, hids, hlen, hderives⟩, hsteps, hseen⟩ :=
    Analysis.of_eq_ok (P := Follows k q start) hk hclear
      (fun p e' why he' hexplains hviolated hpseen hpsteps => by
        obtain rfl := Option.some.inj (he'.symm.trans he)
        exact hb.follows_start hk.sound he' hid hexplains hviolated hpseen hpsteps)
      (fun p p' l ref e why hp hr => hb.follows_step hk.sound hp hr) ha
  rw [hsteps, hreasons] at hout
  obtain rfl : reasons = out := Except.ok.inj hout
  have hlev : 0 < k.trail.level := Nat.lt_of_le_of_lt (Nat.zero_le _) hlearns.level_lt
  obtain ⟨hderives', hids'⟩ := hb.units_derive hvalid hderives hunits hlearns.nodup_fixed
    (fun v hv => by
      obtain ⟨m, hm, -⟩ := hlearns.fixed v hv
      refine ⟨-(⟨v, m.negative⟩ : Literal), (mem_blamed hvalid).2 ⟨?_, (hseen v).2 (Or.inr hv)⟩, rfl⟩
      rw [Literal.neg_neg]
      exact Trail.holds_mk hm)
    fun l hl _ => ((mem_blamed hvalid).1 hl).1
  have hne' : reasons ++ units ≠ [] := by
    intro hnil
    obtain ⟨rfl, rfl⟩ := List.append_eq_nil_iff.1 hnil
    rcases hne with hsome | hsome
    · refine hsome (List.eq_nil_of_length_eq_zero ?_)
      rw [← hsteps, ← hlen, List.length_nil]
    · exact hsome (unitSteps_eq_ok hunits).1.symm
  have hall : ∀ x ∈ reasons ++ units, x.1.id ≠ 0 := by
    intro x hx
    exact (List.mem_append.1 hx).elim (hids x) (hids' x)
  obtain ⟨ho, hempty⟩ := hb.offers hall hne' hderives' hd
  refine ⟨ho.congr fun j => ?_, hempty⟩
  rw [List.mem_filter, decide_eq_true_eq, mem_blamed hvalid, hseen]
  constructor
  · rintro ⟨⟨hfalse, ⟨l, hl, hv⟩ | hfix⟩, hno⟩
    · have hlj := hvalid.eq_of_holds (hlearns.falsified hlev l hl).1 hfalse hv
      have heq : l = j := by simpa using congrArg (- ·) hlj
      exact heq ▸ hl
    · exact absurd hfix hno
  · intro hj
    obtain ⟨hfalse, hpos⟩ := hlearns.falsified hlev j hj
    refine ⟨⟨hfalse, Or.inl ⟨j, hj, rfl⟩⟩, fun hfix => ?_⟩
    obtain ⟨m, hm, hzero⟩ := hlearns.fixed _ hfix
    rw [Trail.levelOf_eq hm] at hpos
    omega

end Kernel

end Cdcl.Certificate
