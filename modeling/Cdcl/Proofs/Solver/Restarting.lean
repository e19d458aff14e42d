import Cdcl.Proofs.Progress.Reachable

/-!
# Restarts are paid for by conflicts

A round of a search is over once it has met as many conflicts as its interval says. If no interval is
zero, every restart ends a round that has met a conflict, so a search meets at least as many conflicts
as it goes through restarts (`restarts_paid`). Geometric intervals are never zero, and those of a Luby
sequence are multiples of its base. With base zero every round is over before it begins, and no search
finds a model (`not_satisfiable_of_zero`).
-/

namespace Cdcl
set_option autoImplicit false

namespace Restart

variable {r r' : Restart} {interval : Option Nat} {p : Policy}

/-- No interval of the sequence is zero. -/
def Positive : Restart → Prop
  | .luby s => 0 < s.base ∧ 0 < s.power
  | .geometric _ | .never => True

theorem power_advance_pos {s : Luby} (h : 0 < s.power) : 0 < s.advance.power := by
  unfold Luby.advance
  split
  · exact Nat.one_pos
  · exact Nat.mul_pos Nat.two_pos h

theorem Positive.next (h : r.Positive) (hnext : r.next = .ok (interval, r')) :
    interval ≠ some 0 ∧ r'.Positive := by
  cases r with
  | luby s =>
    obtain ⟨product, hmul, hnext⟩ := bind_eq_ok_iff.1 hnext
    obtain ⟨rfl, rfl⟩ := Prod.mk.inj (Except.ok.inj hnext)
    obtain rfl : s.power * s.base = product := by
      unfold Word.mul at hmul
      split at hmul
      · exact Except.ok.inj hmul
      · exact absurd hmul (by simp)
    have hpos : 0 < s.power * s.base := Nat.mul_pos h.2 h.1
    exact ⟨fun hzero => absurd (Option.some.inj hzero) (Nat.ne_of_gt hpos),
      (base_advance s).symm ▸ h.1, power_advance_pos h.2⟩
  | geometric s =>
    obtain ⟨rfl, rfl⟩ := Prod.mk.inj (Except.ok.inj hnext)
    have hpos : 1 ≤ max 1 s.current.toUInt64.toNat := Nat.le_max_left 1 _
    exact ⟨fun hzero => absurd (Option.some.inj hzero) (Nat.ne_of_gt hpos), trivial⟩
  | never =>
    obtain ⟨rfl, rfl⟩ := Prod.mk.inj (Except.ok.inj hnext)
    exact ⟨by simp, trivial⟩

theorem Positive.of_precedes (h : r.Positive) (hlater : r.Precedes r') : r'.Positive :=
  hlater.keeps (fun _ _ _ hpos hnext => (hpos.next hnext).2) h

theorem positive_ofPolicy (h : ofPolicy p = .ok r) (hp : p ≠ .luby 0) : r.Positive := by
  cases p with
  | luby base =>
    obtain rfl := Except.ok.inj h
    exact ⟨Nat.pos_of_ne_zero fun hzero => hp (hzero ▸ rfl), Nat.one_pos⟩
  | geometric first factor =>
    obtain ⟨-, -, h⟩ := bind_eq_ok_iff.1 h
    obtain rfl := Except.ok.inj h
    trivial
  | never =>
    obtain rfl := Except.ok.inj h
    trivial

end Restart

/-! ## The account of a search -/

/-- All restarts since an earlier account are paid for by conflicts of rounds that are over. -/
structure Paid (a₀ : Account) (r : Round) (a : Account) : Prop where
  interval : r.interval ≠ some 0
  intervals : a.intervals.Positive
  balance : a.restarts + r.conflicts + a₀.conflicts ≤ a₀.restarts + a.conflicts

variable {b : Budget} {r r' : Round} {a a' a₀ : Account} {out : Outcome}

theorem Round.conflicts_pos (hover : r.isOver = true) (h : r.interval ≠ some 0) :
    1 ≤ r.conflicts := by
  unfold isOver at hover
  split at hover
  · next limit hlimit =>
    have hne : limit ≠ 0 := fun hzero => h (hzero ▸ hlimit)
    exact Nat.le_trans (Nat.pos_of_ne_zero hne) (of_decide_eq_true hover)
  · exact absurd hover (by simp)

namespace Advances

/-- A step meets a conflict, or restarts a round that is over, or counts nothing. -/
theorem counts (h : Advances b r a out a') :
    a'.conflicts = a.conflicts + 1 ∧ a'.restarts = a.restarts ∨
      r.isOver = true ∧ a'.conflicts = a.conflicts ∧ a'.restarts = a.restarts + 1 ∨
      a'.conflicts = a.conflicts ∧ a'.restarts = a.restarts := by
  cases h with
  | refuted | learnt | exhausted => exact Or.inl ⟨rfl, rfl⟩
  | restarted hover | stopped hover => exact Or.inr (Or.inl ⟨hover, rfl, rfl⟩)
  | decided | failed | found => exact Or.inr (Or.inr ⟨rfl, rfl⟩)

theorem isOver_of_restart (h : Advances b r a out a') (hmore : a.restarts < a'.restarts) :
    r.isOver = true := by
  rcases h.counts with ⟨-, hsame⟩ | ⟨hover, -⟩ | ⟨-, hsame⟩
  · exact absurd hmore (hsame ▸ Nat.lt_irrefl _)
  · exact hover
  · exact absurd hmore (hsame ▸ Nat.lt_irrefl _)

/-- The conflicts of a round pay for the restart that ends it. -/
theorem balance (h : Advances b r a out a') (hpaid : Paid a₀ r a) :
    a'.restarts + a₀.conflicts ≤ a₀.restarts + a'.conflicts := by
  have hbefore := hpaid.balance
  rcases h.counts with ⟨hconflicts, hrestarts⟩ | ⟨hover, hconflicts, hrestarts⟩ |
    ⟨hconflicts, hrestarts⟩
  · omega
  · have hpays := Round.conflicts_pos hover hpaid.interval
    omega
  · omega

theorem paid (h : Advances b r a (.goOn r') a') (hpaid : Paid a₀ r a) : Paid a₀ r' a' := by
  have hbalance := h.balance hpaid
  cases h with
  | learnt =>
    have := hpaid.balance
    exact ⟨hpaid.interval, hpaid.intervals, by dsimp only; omega⟩
  | restarted _ _ hnext =>
    obtain ⟨hinterval, hintervals⟩ := hpaid.intervals.next hnext
    exact ⟨hinterval, hintervals, hbalance⟩
  | decided => exact hpaid

end Advances

namespace Solver

variable {s s' s₀ s₁ s₂ : Solver} {A : List Literal} {r₀ : Round} {fuel : Nat} {v : Verdict}
  {raws : List Int} {cs : List Call} {rs : List Reply} {config : Config} {interval : Option Nat}
  {restarts : Restart}

theorem Rounds.paid (h : Rounds b A r₀ s₀ r s) (hpaid : Paid a₀ r₀ s₀.account) :
    Paid a₀ r s.account := by
  induction h with
  | start => exact hpaid
  | goOn _ hr ih => exact (step_advances hr).paid ih

theorem run_balance (hr : run b A fuel r s = .ok (v, s')) (hpaid : Paid a₀ r s.account) :
    s'.stats.restarts + a₀.conflicts ≤ a₀.restarts + s'.stats.conflicts :=
  run_induction (P := fun r t => Paid a₀ r t.account)
    (Q := fun _ t => t.stats.restarts + a₀.conflicts ≤ a₀.restarts + t.stats.conflicts) hr hpaid
    (fun h hs₁ => (step_advances hs₁).paid h) (fun h hs₁ => (step_advances hs₁).balance h)
    (fun h => Nat.le_trans (Nat.add_le_add_right (Nat.le_add_right _ _) _) h.balance)

theorem paid_atStart (assumed : Nat) (hpos : s.restarts.Positive)
    (hnext : s.restarts.next = .ok (interval, restarts)) :
    Paid s.account { interval } (s.atStart assumed restarts).account := by
  obtain ⟨hinterval, hintervals⟩ := hpos.next hnext
  exact ⟨hinterval, hintervals, Nat.le_refl _⟩

theorem solve_balance (hpos : s.restarts.Positive) (hr : s.solve fuel raws = .ok (v, s')) :
    s'.stats.restarts + s.stats.conflicts ≤ s.stats.restarts + s'.stats.conflicts := by
  obtain ⟨-, -, rfl⟩ | ⟨-, ls, b, interval, restarts, s₁, s₂, -, -, hnext, hs₁, hs₂, rfl⟩ :=
    solve_cases hr
  · exact Nat.le_refl _
  · have hbalance := run_balance hs₁ (paid_atStart ls.length hpos hnext)
    have h₂ := account_backtrack hs₂
    change s₂.account.restarts + _ ≤ _ + s₂.account.conflicts
    rw [h₂]
    exact hbalance

theorem performAll_precedes (hr : s.performAll cs = .ok (rs, s')) :
    s.restarts.Precedes s'.restarts := by
  induction cs generalizing s rs with
  | nil =>
    obtain ⟨-, rfl⟩ := Prod.mk.inj (Except.ok.inj hr)
    exact .of_eq rfl
  | cons c cs ih =>
    obtain ⟨⟨reply, s₁⟩, hs₁, hr⟩ := bind_eq_ok_iff.1 hr
    obtain ⟨⟨replies, s₂⟩, hs₂, hr⟩ := bind_eq_ok_iff.1 hr
    obtain ⟨-, rfl⟩ := Prod.mk.inj (Except.ok.inj hr)
    exact (perform_precedes hs₁).trans (ih hs₂)

/-- The intervals of a solver are what its calls have left of the configured sequence. -/
theorem intervals_of_calls (hcreate : create config = .ok s₀)
    (hcs : s₀.performAll cs = .ok (rs, s)) :
    ∃ r, Restart.ofPolicy config.restarts = .ok r ∧ r.Precedes s.restarts := by
  obtain ⟨order, -, hcreate⟩ := bind_eq_ok_iff.1 hcreate
  obtain ⟨restarts, hrestarts, hcreate⟩ := bind_eq_ok_iff.1 hcreate
  obtain rfl := Except.ok.inj hcreate
  exact ⟨restarts, hrestarts, performAll_precedes hcs⟩

/-- Unless the intervals are those of a Luby sequence with base zero, every restart ends a round that
has met a conflict, after whatever calls and under whatever assumptions. So a search goes through no
more restarts than it meets conflicts. -/
theorem restarts_paid (hcreate : create config = .ok s₀) (hcs : s₀.performAll cs = .ok (rs, s))
    (hbase : config.restarts ≠ .luby 0) :
    (∀ interval restarts, s.restarts.next = .ok (interval, restarts) →
      ∀ b A assumed r s₁, Rounds b A { interval } (s.atStart assumed restarts) r s₁ →
        s₁.stats.restarts + r.conflicts + s.stats.conflicts ≤
          s.stats.restarts + s₁.stats.conflicts ∧
        ∀ out s₂, step b A r s₁ = .ok (out, s₂) → s₁.stats.restarts < s₂.stats.restarts →
          1 ≤ r.conflicts) ∧
    ∀ fuel raws v s', s.solve fuel raws = .ok (v, s') →
      s'.stats.restarts + s.stats.conflicts ≤ s.stats.restarts + s'.stats.conflicts := by
  obtain ⟨r₀, hpolicy, hlater⟩ := intervals_of_calls hcreate hcs
  have hpos : s.restarts.Positive := (Restart.positive_ofPolicy hpolicy hbase).of_precedes hlater
  refine ⟨fun interval restarts hnext b A assumed r s₁ hrounds => ?_,
    fun fuel raws v s' hr => solve_balance hpos hr⟩
  have hpaid : Paid s.account r s₁.account := hrounds.paid (paid_atStart assumed hpos hnext)
  refine ⟨hpaid.balance, fun out s₂ hr hmore => ?_⟩
  exact Round.conflicts_pos ((step_advances hr).isOver_of_restart hmore) hpaid.interval

theorem restarts_paid_base_one : ∃ s₀ rs s,
    create { restarts := .luby 1, order := .uniform 0 } = .ok s₀ ∧
    s₀.performAll [.newVars 2, .addClause [1], .limitConflicts (some 0)] = .ok (rs, s) ∧
    ∀ fuel raws v s', s.solve fuel raws = .ok (v, s') →
      s'.stats.restarts + s.stats.conflicts ≤ s.stats.restarts + s'.stats.conflicts := by
  refine ⟨_, _, _, rfl, rfl, ?_⟩
  exact (restarts_paid (show create { restarts := .luby 1, order := .uniform 0 } = .ok _ from rfl)
    (show performAll _ [.newVars 2, .addClause [1], .limitConflicts (some 0)] = .ok _ from rfl)
    (by simp)).2

/-- With base zero a search without constraints starts over and meets no conflict. -/
theorem restarts_unpaid_base_zero : ∃ s₀ s s',
    create { restarts := .luby 0, order := .uniform 0 } = .ok s₀ ∧
    s₀.performAll [.newVars 1, .limitConflicts (some 0)] = .ok ([.done, .done], s) ∧
    s.solve 1 [] = .ok (.timeout, s') ∧ s.stats = {} ∧ s'.stats = { restarts := 1 } :=
  ⟨_, _, _, rfl, rfl, rfl, rfl, rfl⟩

end Solver

/-! ## Base zero -/

/-- The round is over before it begins, and so are the rounds to come. -/
def Stalled (r : Round) (a : Account) : Prop :=
  r.interval = some 0 ∧ ∃ s : Luby, s.base = 0 ∧ a.intervals = .luby s

theorem Stalled.isOver (h : Stalled r a) : r.isOver = true := by
  rw [Round.isOver, h.1]
  exact decide_eq_true (Nat.zero_le _)

theorem Restart.next_of_base_zero {s : Luby} (h : s.base = 0) :
    (Restart.luby s).next = .ok (some 0, .luby s.advance) := by
  have hmul : Word.mul s.power s.base = .ok 0 := by
    rw [h]
    rfl
  exact bind_eq_ok_iff.2 ⟨0, hmul, rfl⟩

theorem Advances.stalled (h : Advances b r a out a') (hstalled : Stalled r a) :
    out ≠ .finish .satisfiable ∧ ∀ r', out = .goOn r' → Stalled r' a' := by
  have hover := hstalled.isOver
  obtain ⟨hinterval, s, hbase, hintervals⟩ := hstalled
  cases h with
  | restarted _ _ hnext =>
    rw [hintervals, Restart.next_of_base_zero hbase] at hnext
    obtain ⟨rfl, rfl⟩ := Prod.mk.inj (Except.ok.inj hnext)
    refine ⟨by simp, ?_⟩
    rintro _ ⟨⟩
    exact ⟨rfl, s.advance, (Restart.base_advance s).trans hbase, rfl⟩
  | learnt =>
    refine ⟨by simp, ?_⟩
    rintro _ ⟨⟩
    exact ⟨hinterval, s, hbase, hintervals⟩
  | refuted | exhausted | stopped => exact ⟨by simp, by simp⟩
  | decided hgoes | failed hgoes | found hgoes => exact absurd (hgoes.symm.trans hover) (by simp)

namespace Solver

variable {s s' s₀ : Solver} {A : List Literal} {fuel : Nat} {v : Verdict} {raws : List Int}
  {cs : List Call} {rs : List Reply} {config : Config}

theorem run_ne_satisfiable (hr : run b A fuel r s = .ok (v, s')) (hstalled : Stalled r s.account) :
    v ≠ .satisfiable :=
  run_induction (P := fun r t => Stalled r t.account) (Q := fun v _ => v ≠ .satisfiable) hr hstalled
    (fun h hs₁ => ((step_advances hs₁).stalled h).2 _ rfl)
    (fun h hs₁ heq => ((step_advances hs₁).stalled h).1 (heq ▸ rfl)) (fun _ => by simp)

/-- With base zero no search finds a model, since it starts over before every decision. -/
theorem not_satisfiable_of_zero (hcreate : create config = .ok s₀)
    (hcs : s₀.performAll cs = .ok (rs, s)) (hbase : config.restarts = .luby 0)
    (hr : s.solve fuel raws = .ok (v, s')) : v ≠ .satisfiable := by
  obtain ⟨r₀, hpolicy, hlater⟩ := intervals_of_calls hcreate hcs
  rw [hbase] at hpolicy
  obtain rfl := Except.ok.inj hpolicy
  obtain ⟨l, hzero, hintervals⟩ : ∃ l : Luby, l.base = 0 ∧ s.restarts = .luby l := by
    refine hlater.keeps (P := fun r => ∃ l : Luby, l.base = 0 ∧ r = .luby l) ?_ ⟨_, rfl, rfl⟩
    rintro _ interval r' ⟨l, hzero, rfl⟩ hnext
    rw [Restart.next_of_base_zero hzero] at hnext
    obtain ⟨-, rfl⟩ := Prod.mk.inj (Except.ok.inj hnext)
    exact ⟨l.advance, (Restart.base_advance l).trans hzero, rfl⟩
  obtain ⟨-, rfl, -⟩ | ⟨-, ls, b, interval, restarts, s₁, s₂, -, -, hnext, hs₁, -⟩ := solve_cases hr
  · simp
  · rw [hintervals, Restart.next_of_base_zero hzero] at hnext
    obtain ⟨rfl, rfl⟩ := Prod.mk.inj (Except.ok.inj hnext)
    exact run_ne_satisfiable hs₁ ⟨rfl, l.advance, (Restart.base_advance l).trans hzero, rfl⟩

end Solver
end Cdcl
