import Cdcl.Proofs.Progress.Strategy

/-!
# First unique implication points

What the analysis of a conflict above level 0 gives is collected in `Analysis.Teaches`: the learnt
clause is false, only its first literal belongs to the current level, the level to return to is that
of its second literal, after the return it asserts its first literal, and it follows from the
antecedents and the literals at level 0. Every conflict that a search meets above level 0 can be
analysed and teaches such a clause (`Reachable.conflicts_teach`).
-/

namespace Cdcl
set_option autoImplicit false

namespace Analysis

/-- The learnt clause is false and above level 0, and only its first literal belongs to the current
level. The level to return to is that of the second literal, the highest among the others. After the
return the first literal is open and the others are false. The clause follows from the antecedents,
all of which are stored, and the literals at level 0. -/
structure Teaches (k : Kernel) (a : Analysis) : Prop where
  distinct : (a.learnt.map Literal.var).Nodup
  falsified : ∀ l ∈ a.learnt, k.trail.holds (-l) = true ∧ 0 < k.trail.levelOf l.var
  first : ∃ l others, a.learnt = l :: others ∧ k.trail.levelOf l.var = k.trail.level ∧
    (∀ m ∈ others, k.trail.levelOf m.var < k.trail.level) ∧
    (k.trail.undoTo a.level).1.mark? l.var = none ∧
    ∀ m ∈ others, (k.trail.undoTo a.level).1.holds (-m) = true
  unit : ∀ l, a.learnt = [l] → a.level = 0
  second : ∀ l m ms, a.learnt = l :: m :: ms → a.level = k.trail.levelOf m.var ∧
    (∀ x ∈ m :: ms, k.trail.levelOf x.var ≤ a.level) ∧ 1 ≤ a.level ∧ a.level ≤ k.trail.level - 1
  stored : ∀ ref ∈ a.antecedents, ∃ e, k.store.get? ref = some e
  entailed : ∀ b : Assignment, Grants k.store a.antecedents b → b.RespectsRoot k.trail →
    b.Satisfies a.learnt

variable {k : Kernel} {conflict : ClauseRef} {analyzer analyzer' : Analyzer} {a : Analysis}

theorem teaches_of_eq_ok (hk : k.Clash conflict) (hclear : analyzer.Clear)
    (h : of k.trail k.store analyzer conflict = .ok (a, analyzer')) :
    a.Teaches k ∧ analyzer'.Clear := by
  obtain ⟨hlearns, hclear', -⟩ := of_eq_ok (P := fun _ => True) hk hclear
    (fun _ _ _ _ _ _ _ _ => trivial) (fun _ _ _ _ _ _ _ _ => trivial) h
  have hlt := hlearns.level_lt
  obtain ⟨u, others, hlearnt, -, hulev, hothers, hsecond, hunit⟩ := hlearns.asserting
  obtain ⟨l, others', hreturns⟩ := Solver.returns_of_learns hlearns hk.sound.trail
  obtain ⟨rfl, rfl⟩ := List.cons.inj (hlearnt.symm.trans hreturns.learnt)
  refine ⟨⟨hlearns.distinct, hlearns.falsified (Nat.lt_of_le_of_lt (Nat.zero_le _) hlt), ?_, ?_, ?_,
    stored_of_antecedents hk hclear h, fun b => entails_of_antecedents hk hclear h⟩,
    hclear'⟩
  · exact ⟨-u, others, hlearnt, hulev,
      fun m hm => Nat.lt_of_le_of_lt (hothers m hm).2.2 hlt, hreturns.free, hreturns.falsified⟩
  · intro l hl
    exact hunit (List.cons.inj (hlearnt.symm.trans hl)).2
  · intro l m ms hl
    obtain ⟨-, rfl⟩ := List.cons.inj (hlearnt.symm.trans hl)
    have hm := hsecond m ms rfl
    have hpos := (hothers m List.mem_cons_self).2.1
    exact ⟨hm.symm, fun x hx => (hothers x hx).2.2, hm ▸ hpos, by omega⟩

end Analysis

namespace Solver

variable {s s' s₁ : Solver} {F : Formula} {A : List Literal} {conflict : ClauseRef} {n : Nat}

/-- A conflict that a search meets above level 0 can be analysed. -/
theorem Searching.analyze (h : s.Searching F A) (hs₁ : s.propagate = .ok (some conflict, s₁))
    (hlev : 0 < s₁.trail.level) (stats : Statistics) :
    s₁.kernel.Clash conflict ∧ s₁.analyzer.Clear ∧ ∃ a id s₂,
      Solver.analyze { s₁ with stats } conflict = .ok (a, id, s₂) ∧ s₂.kernel = s₁.kernel := by
  obtain ⟨hkeeps, hclash, hext, -⟩ := h.sane.keeps.propagate h.sane.ready hs₁
  replace hclash : s₁.kernel.Clash conflict := hclash
  obtain ⟨_, _, hsame, hample, hcertificate⟩ := h.propagate
  obtain ⟨-, rfl⟩ := Prod.mk.inj (Except.ok.inj (hs₁.symm.trans hsame))
  have hsupplied : Supplied (paced { s₁ with stats } .free) 0 := by
    refine ⟨hample.of_eq rfl rfl rfl rfl rfl rfl, fun _ c hc => ?_⟩
    have hcomplete := h.equipped.complete h.sane.keeps.undecided c (hcertificate ▸ hc)
    exact hcomplete.of_sameRoot hext.vars (.of_extends hext (hext.level ▸ hlev))
  have hsigned : s₁.numVars < Var.signedLimit := by
    rw [show s₁.numVars = s.numVars from hext.vars]
    exact h.signed
  have hkeeps' : Keeps (paced { s₁ with stats } .free) F :=
    hkeeps.of_eq rfl rfl rfl rfl rfl rfl rfl hkeeps.calm
  obtain ⟨a, id, _, hfree, -⟩ := hsupplied.analyze hkeeps' hclash hlev hsigned
  rw [analyze_paced] at hfree
  obtain ⟨⟨a', id', s₂⟩, hs₂, -⟩ := map_eq_ok_iff.1 hfree
  have hkeeps₁ : Keeps { s₁ with stats } F := hkeeps.of_eq rfl rfl rfl rfl rfl rfl rfl hkeeps.calm
  exact ⟨hclash, hkeeps.clear, a', id', s₂, hs₂, (hkeeps₁.analyze hclash hs₂).2.1⟩

/-- What an analysis keeps is what `Analysis.of` leaves. -/
theorem of_analyze {a : Analysis} {id : Option ClauseId}
    (h : s.analyze conflict = .ok (a, id, s')) :
    Analysis.of s.trail s.store s.analyzer conflict = .ok (a, s'.analyzer) := by
  obtain ⟨⟨a₁, analyzer⟩, ha, h⟩ := bind_eq_ok_iff.1 h
  obtain ⟨order, -, h⟩ := bind_eq_ok_iff.1 h
  obtain ⟨_, -, h⟩ := bind_eq_ok_iff.1 h
  obtain ⟨⟨id₁, s₁⟩, hs₁, h⟩ := bind_eq_ok_iff.1 h
  obtain ⟨rfl, hpair⟩ := Prod.mk.inj (Except.ok.inj h)
  obtain ⟨-, rfl⟩ := Prod.mk.inj hpair
  obtain ⟨hlogs, -⟩ := certifyClause_eq_ok hs₁
  have hanalyzer : s₁.analyzer = analyzer := by
    unfold Logs at hlogs
    rw [hlogs]
    rfl
  rw [ha]
  exact congrArg (fun m => Except.ok (a₁, m)) hanalyzer.symm

end Solver

open Solver

variable {config : Config} {s : Solver}

/-- Every conflict above level 0 that a search of an open formula meets is analysed with the result
that `Teaches` describes. The analysis changes nothing in the kernel, and the analyzer is empty
afterwards: no variable is seen, and none is noted as met at level 0. -/
theorem Reachable.conflicts_teach (h : Reachable config s) (hopen : s.refuted = false)
    {raws : List Int} {ls : List Literal} (hls : s.literals raws = .ok ls) {b : Budget}
    {r₀ r : Round} {restarts : Restart} {s₁ s₂ : Solver} {conflict : ClauseRef}
    (hrounds : Rounds b ls r₀ (s.atStart ls.length restarts) r s₁)
    (hconflict : s₁.propagate = .ok (some conflict, s₂)) (hlev : 0 < s₂.trail.level)
    (stats : Statistics) :
    ∃ a id s₃, Solver.analyze { s₂ with stats } conflict = .ok (a, id, s₃) ∧
      Analysis.of s₂.trail s₂.store s₂.analyzer conflict = .ok (a, s₃.analyzer) ∧
      a.Teaches s₂.kernel ∧ s₃.kernel = s₂.kernel ∧
      (∀ v, s₃.analyzer.seen.getD v false = false) ∧ s₃.analyzer.fixed = [] := by
  obtain ⟨F, hstart⟩ := h.searching hopen hls restarts
  obtain ⟨hclash, hclear, a, id, s₃, hs₃, hkernel⟩ :=
    (hrounds.searching hstart).analyze hconflict hlev stats
  have ha : Analysis.of s₂.trail s₂.store s₂.analyzer conflict = .ok (a, s₃.analyzer) :=
    of_analyze (s := { s₂ with stats }) hs₃
  obtain ⟨hteaches, hclear'⟩ := Analysis.teaches_of_eq_ok hclash hclear ha
  exact ⟨a, id, s₃, hs₃, ha, hteaches, hkernel,
    fun v => Bool.eq_false_iff.2 (hclear'.unseen v), hclear'.fixed⟩

/-! ## Two assumptions that contradict two clauses -/

namespace Solver

/-- A quiet solver in which nothing was fixed for good. -/
structure Bare (s : Solver) (k : Kernel) (analyzer : Analyzer) : Prop extends Quiet s where
  kernel : s.kernel = k
  analyzer : s.analyzer = analyzer
  simplified : s.simplified = 0

variable {s s₀ : Solver} {k k' : Kernel} {analyzer : Analyzer}

theorem Bare.atStart {n : Nat} {restarts : Restart} (h : s.Bare k analyzer) :
    (s.atStart n restarts).Bare k analyzer :=
  ⟨⟨h.learnts, h.certificate⟩, h.kernel, h.analyzer, h.simplified⟩

theorem Bare.propagate {o : Option ClauseRef} (h : s.Bare k analyzer) (hk : k.propagate = .ok (o, k')) :
    s.propagate = .ok (o, s.setKernel k') ∧ (s.setKernel k').Bare k' analyzer := by
  refine ⟨?_, ⟨h.learnts, h.certificate⟩, rfl, h.analyzer, h.simplified⟩
  unfold Solver.propagate
  rw [h.kernel, hk]
  rfl

theorem Bare.arrives {r : Round} (h : s.Bare k analyzer) (hover : r.isOver = false)
    (hk : k.propagate = .ok (none, k')) (hroot : k'.trail.level = 0 → k'.trail.literals.size = 0) :
    ∃ stats journal, Arrives r s { s.setKernel k' with stats, journal } := by
  obtain ⟨hs₁, h₁⟩ := h.propagate hk
  have hsettle := h₁.settle_of_simplified fun hzero => (hroot hzero).trans h.simplified.symm
  exact arrives_of_nil hs₁ hsettle hover h.learnts

/-- A search decides on its next assumption. -/
theorem Bare.decides {A : List Literal} {b : Budget} {r : Round} {l : Literal} {t : Trail}
    (h : s.Bare k analyzer) (hover : r.isOver = false) (hk : k.propagate = .ok (none, k'))
    (hroot : k'.trail.level = 0 → k'.trail.literals.size = 0)
    (hl : A[k'.trail.level]? = some l) (hsat : k'.trail.isSatisfied l = .ok false)
    (hfals : k'.trail.isFalsified l = .ok false) (hdecide : k'.trail.decide l = .ok t) :
    ∃ s', step b A r s = .ok (.goOn r, s') ∧ s'.Bare { k' with trail := t } analyzer := by
  obtain ⟨stats, journal, harrives⟩ := h.arrives hover hk hroot
  obtain ⟨journal', hchoose⟩ := choose_of_assumption (r := r)
    (s := { s.setKernel k' with stats, journal }) hl hsat hfals hdecide
  exact ⟨_, harrives.step_eq.trans hchoose, ⟨h.learnts, h.certificate⟩, rfl, h.analyzer, h.simplified⟩

theorem Rounds.decide {A : List Literal} {b : Budget} {r₀ r : Round} {l : Literal} {t : Trail}
    (h : Rounds b A r₀ s₀ r s) (hs : s.Bare k analyzer) (hover : r.isOver = false)
    (hk : k.propagate = .ok (none, k')) (hroot : k'.trail.level = 0 → k'.trail.literals.size = 0)
    (hl : A[k'.trail.level]? = some l) (hsat : k'.trail.isSatisfied l = .ok false)
    (hfals : k'.trail.isFalsified l = .ok false) (hdecide : k'.trail.decide l = .ok t) :
    ∃ s', Rounds b A r₀ s₀ r s' ∧ s'.Bare { k' with trail := t } analyzer := by
  obtain ⟨s', hstep, h'⟩ := hs.decides hover hk hroot hl hsat hfals hdecide
  exact ⟨s', h.goOn hstep, h'⟩

end Solver

/-- Two clauses with three variables, on a trail and with watch lists. -/
def Kernel.pair (marks : List (Option Mark)) (literals : List Literal) (limits : List Nat)
    (head : Nat) (lists : List (List ClauseRef)) (c d : Constraint) : Kernel where
  trail := .ofMarks marks literals limits head
  watches := ⟨⟨⟨lists.map List.toArray⟩⟩⟩
  store := { slots := #[some ⟨c, 0.0, false, none⟩, some ⟨d, 0.0, false, none⟩], live := 2 }
  propagations := head

/-- Two clauses that force the third variable and its negation once the first two are true. -/
def Kernel.opposed : Kernel := .pair [none, none, none, none] [] [] 0
  [[], [], [], [⟨0⟩, ⟨1⟩], [], [⟨0⟩, ⟨1⟩], [], []]
  (.watched ⟨⟨1⟩, true⟩ ⟨⟨2⟩, true⟩ [⟨⟨3⟩, false⟩])
  (.watched ⟨⟨1⟩, true⟩ ⟨⟨2⟩, true⟩ [⟨⟨3⟩, true⟩])

/-- The same clauses once the first two variables are decided on and the first clause has forced the
third. -/
def Kernel.clashed : Kernel := { Kernel.pair
  [none, some ⟨false, 1, none, 0⟩, some ⟨false, 2, none, 1⟩, some ⟨false, 2, some ⟨0⟩, 2⟩]
  [⟨⟨1⟩, false⟩, ⟨⟨2⟩, false⟩, ⟨⟨3⟩, false⟩] [0, 1] 3
  [[], [], [], [], [], [⟨0⟩, ⟨1⟩], [⟨0⟩], [⟨1⟩]]
  (.watched ⟨⟨3⟩, false⟩ ⟨⟨2⟩, true⟩ [⟨⟨1⟩, true⟩])
  (.watched ⟨⟨3⟩, true⟩ ⟨⟨2⟩, true⟩ [⟨⟨1⟩, true⟩]) with propagations := 2 }

/-- The first two variables are assumed, and the third one is forced by one clause and violates the
other. -/
theorem Solver.Bare.exists_conflict {s : Solver} {analyzer : Analyzer} {r : Round}
    (h : s.Bare .opposed analyzer) (hover : r.isOver = false) (b : Budget) : ∃ s₁ s₂ s₃ : Solver,
    step b [⟨⟨1⟩, false⟩, ⟨⟨2⟩, false⟩] r s = .ok (.goOn r, s₁) ∧
    step b [⟨⟨1⟩, false⟩, ⟨⟨2⟩, false⟩] r s₁ = .ok (.goOn r, s₂) ∧
    s₂.propagate = .ok (some ⟨1⟩, s₃) ∧ s₃.Bare .clashed analyzer := by
  obtain ⟨s₁, hs₁, h₁⟩ := h.decides (b := b) (A := [⟨⟨1⟩, false⟩, ⟨⟨2⟩, false⟩]) hover rfl
    (fun _ => rfl) rfl rfl rfl rfl
  replace h₁ : s₁.Bare (.pair [none, some ⟨false, 1, none, 0⟩, none, none] [⟨⟨1⟩, false⟩] [0] 0
      [[], [], [], [⟨0⟩, ⟨1⟩], [], [⟨0⟩, ⟨1⟩], [], []]
      (.watched ⟨⟨1⟩, true⟩ ⟨⟨2⟩, true⟩ [⟨⟨3⟩, false⟩])
      (.watched ⟨⟨1⟩, true⟩ ⟨⟨2⟩, true⟩ [⟨⟨3⟩, true⟩])) _ := h₁
  -- the clauses are watched at the third variable now
  obtain ⟨s₂, hs₂, h₂⟩ := h₁.decides (b := b) (A := [⟨⟨1⟩, false⟩, ⟨⟨2⟩, false⟩]) hover
    (show Kernel.propagate _ = .ok (none, .pair [none, some ⟨false, 1, none, 0⟩, none, none]
      [⟨⟨1⟩, false⟩] [0] 1 [[], [], [], [], [], [⟨0⟩, ⟨1⟩], [⟨0⟩], [⟨1⟩]]
      (.watched ⟨⟨2⟩, true⟩ ⟨⟨3⟩, false⟩ [⟨⟨1⟩, true⟩])
      (.watched ⟨⟨2⟩, true⟩ ⟨⟨3⟩, true⟩ [⟨⟨1⟩, true⟩])) from rfl)
    (fun hzero => absurd hzero (by decide)) rfl rfl rfl rfl
  replace h₂ : s₂.Bare (.pair
      [none, some ⟨false, 1, none, 0⟩, some ⟨false, 2, none, 1⟩, none]
      [⟨⟨1⟩, false⟩, ⟨⟨2⟩, false⟩] [0, 1] 1 [[], [], [], [], [], [⟨0⟩, ⟨1⟩], [⟨0⟩], [⟨1⟩]]
      (.watched ⟨⟨2⟩, true⟩ ⟨⟨3⟩, false⟩ [⟨⟨1⟩, true⟩])
      (.watched ⟨⟨2⟩, true⟩ ⟨⟨3⟩, true⟩ [⟨⟨1⟩, true⟩])) _ := h₂
  obtain ⟨hprop, h₃⟩ := h₂.propagate (show Kernel.propagate _ = .ok (some ⟨1⟩, .clashed) from rfl)
  exact ⟨s₁, s₂, _, hs₁, hs₂, hprop, h₃⟩

/-- These calls lead from a new solver to this one. -/
structure Reachable.Through (config : Config) (cs : List Call) (s : Solver) : Prop where
  reachable : Reachable config s
  calls : ∃ s₀ rs, Solver.create config = .ok s₀ ∧ s₀.performAll cs = .ok (rs, s)

theorem Reachable.Through.create (h : Solver.create config = .ok s) : Through config [] s :=
  ⟨.create h, s, [], h, rfl⟩

theorem Solver.performAll_concat {s s₁ s₂ : Solver} {cs : List Call} {c : Call} {rs : List Reply}
    {r : Reply} (hcs : s.performAll cs = .ok (rs, s₁)) (hr : s₁.perform c = .ok (r, s₂)) :
    s.performAll (cs ++ [c]) = .ok (rs ++ [r], s₂) := by
  induction cs generalizing s rs with
  | nil =>
    obtain ⟨rfl, rfl⟩ := Prod.mk.inj (Except.ok.inj hcs)
    exact bind_eq_ok_iff.2 ⟨_, hr, rfl⟩
  | cons d ds ih =>
    obtain ⟨⟨reply, s₃⟩, hs₃, hcs⟩ := bind_eq_ok_iff.1 hcs
    obtain ⟨⟨replies, s₄⟩, hs₄, hcs⟩ := bind_eq_ok_iff.1 hcs
    obtain ⟨rfl, rfl⟩ := Prod.mk.inj (Except.ok.inj hcs)
    exact bind_eq_ok_iff.2 ⟨_, hs₃, bind_eq_ok_iff.2 ⟨_, ih hs₄, rfl⟩⟩

theorem Reachable.Through.call {cs : List Call} {c : Call} {r : Reply} {s' : Solver}
    (h : Through config cs s) (hc : c.Representable) (hr : s.perform c = .ok (r, s'))
    (hvars : s'.numVars < Event.varLimit) : Through config (cs ++ [c]) s' := by
  obtain ⟨s₀, rs, hcreate, hcs⟩ := h.calls
  exact ⟨h.reachable.call hc hr hvars, s₀, _, hcreate, performAll_concat hcs hr⟩

theorem Reachable.exists_opposed : ∃ s : Solver,
    Through Config.plain [.newVars 3, .addClause [-1, -2, 3], .addClause [-1, -2, -3]] s ∧
    s.refuted = false ∧ s.literals [1, 2] = .ok [⟨⟨1⟩, false⟩, ⟨⟨2⟩, false⟩] ∧
    s.Bare .opposed ⟨⟨#[false, false, false, false]⟩, []⟩ ∧
    s.account = ⟨none, none, false, .never, 0, 0, none⟩ := by
  have h₀ : Through Config.plain [] _ := .create (show Solver.create Config.plain = .ok _ from rfl)
  have h₁ := h₀.call (c := .newVars 3) trivial rfl (by decide)
  have h₂ := h₁.call (c := .addClause [-1, -2, 3]) trivial
    (Solver.perform_addClause_of_empty rfl rfl rfl rfl rfl rfl rfl) (by decide)
  have h₃ := h₂.call (c := .addClause [-1, -2, -3]) trivial
    (Solver.perform_addClause_of_new rfl rfl rfl rfl
      (by rw [Std.HashMap.getElem?_insert]; exact Std.HashMap.getElem?_empty) rfl rfl) (by decide)
  exact ⟨_, h₃, rfl, rfl, ⟨⟨rfl, rfl⟩, rfl, rfl, rfl⟩, rfl⟩

/-- The analysis resolves the two clauses on the third variable. -/
theorem Reachable.exists_conflict : ∃ s s₁ s₂ : Solver, Reachable Config.plain s ∧
    s.refuted = false ∧ s.literals [1, 2] = .ok [⟨⟨1⟩, false⟩, ⟨⟨2⟩, false⟩] ∧
    Rounds ⟨none, none⟩ [⟨⟨1⟩, false⟩, ⟨⟨2⟩, false⟩] ⟨none, 0⟩ (s.atStart 2 .never) ⟨none, 0⟩ s₁ ∧
    s₁.propagate = .ok (some ⟨1⟩, s₂) ∧ s₂.trail.level = 2 ∧
    ∃ analyzer, Analysis.of s₂.trail s₂.store s₂.analyzer ⟨1⟩ = .ok (⟨[⟨⟨2⟩, true⟩, ⟨⟨1⟩, true⟩], 1,
      [⟨1⟩, ⟨0⟩], [(⟨3⟩, ⟨0⟩)], [⟨3⟩, ⟨2⟩, ⟨1⟩], []⟩, analyzer) := by
  obtain ⟨s, hs, hopen, hls, hbare, -⟩ := Reachable.exists_opposed
  have hstart : (s.atStart 2 .never).Bare .opposed _ := hbare.atStart
  obtain ⟨s₁, s₂, s₃, hs₁, hs₂, hprop, h₃⟩ :=
    hstart.exists_conflict (r := ⟨none, 0⟩) rfl ⟨none, none⟩
  refine ⟨s, s₂, s₃, hs.reachable, hopen, hls, .goOn (.goOn .start hs₁) hs₂, hprop, ?_⟩
  unfold Solver.trail Solver.store
  rw [h₃.kernel, h₃.analyzer]
  exact ⟨rfl, _, rfl⟩

/-- The conflict of the two assumptions teaches that they cannot hold together. -/
theorem Reachable.conflicts_teach_assumptions : ∃ s s₁ s₂ : Solver, Reachable Config.plain s ∧
    s.refuted = false ∧
    Rounds ⟨none, none⟩ [⟨⟨1⟩, false⟩, ⟨⟨2⟩, false⟩] ⟨none, 0⟩ (s.atStart 2 .never) ⟨none, 0⟩ s₁ ∧
    s₁.propagate = .ok (some ⟨1⟩, s₂) ∧ 0 < s₂.trail.level ∧
    ∃ a id s₃, s₂.analyze ⟨1⟩ = .ok (a, id, s₃) ∧ a.learnt = [⟨⟨2⟩, true⟩, ⟨⟨1⟩, true⟩] ∧
      a.level = 1 ∧ a.antecedents = [⟨1⟩, ⟨0⟩] ∧ a.Teaches s₂.kernel := by
  obtain ⟨s, s₁, s₂, hs, hopen, hls, hrounds, hconflict, hlev, analyzer, ha⟩ :=
    Reachable.exists_conflict
  have hpos : 0 < s₂.trail.level := hlev ▸ Nat.zero_lt_two
  obtain ⟨a, id, s₃, hs₃, ha', hteaches, -⟩ :=
    Reachable.conflicts_teach hs hopen hls hrounds hconflict hpos s₂.stats
  obtain ⟨rfl, -⟩ := Prod.mk.inj (Except.ok.inj (ha.symm.trans ha'))
  exact ⟨s, s₁, s₂, hs, hopen, hrounds, hconflict, hpos, _, id, s₃, hs₃, rfl, rfl, rfl, hteaches⟩

end Cdcl
