import Cdcl.Analysis
import Cdcl.Proofs.Kernel.Meaning

/-!
# What a conflict teaches

`Tracks` is the invariant of an analysis: the table of seen variables, the count of pending ones and
the lists of the progress tell the same story. Each resolution step (`Resolves`) replaces a seen
literal by the explanation of its reason. What holds of the explanation of the violated constraint and
is kept by these steps holds of the learnt clause (`of_eq_ok`); so the learnt clause follows from the
antecedents and the literals at level 0 (`entails_of_antecedents`).
-/

namespace Cdcl
set_option autoImplicit false

/-- The variable was met and is not yet resolved. -/
def Analysis.Seen (seen : VarMap Bool) (v : Var) : Prop := seen.getD v false = true

/-- Nothing is noted: no variable is seen, and none at level 0 was met. -/
structure Analyzer.Clear (m : Analyzer) : Prop where
  unseen : ∀ v, ¬ Analysis.Seen m.seen v
  fixed : m.fixed = []

theorem Analyzer.clear_empty : Analyzer.Clear {} :=
  ⟨fun v => by simp [Analysis.Seen, VarMap.getD, VarMap.empty], rfl⟩

theorem Analyzer.Clear.grow {m m' : Analyzer} {vars : Nat} (h : m.Clear)
    (hr : m.grow vars = .ok m') : m'.Clear := by
  obtain ⟨seen, hseen, hr⟩ := bind_eq_ok_iff.1 hr
  obtain rfl := Except.ok.inj hr
  exact ⟨fun v hv => h.unseen v (((VarMap.grow_eq_ok hseen).1 v).symm.trans hv), h.fixed⟩

namespace Analysis

/-- The parts of a progress agree; the seen variables lie before place `n` of the trail, and `cur`
are those of the current level. -/
structure Tracks (t : Trail) (n : Nat) (p : Progress) (cur : List Var) : Prop where
  assigned : ∀ v, Seen p.seen v → ∃ m, t.mark? v = some m ∧ m.position < n
  nodup : cur.Nodup
  current : ∀ v, v ∈ cur ↔ Seen p.seen v ∧ t.levelOf v = t.level
  pending : p.pending = cur.length
  nodup_lower : (p.lower.map Literal.var).Nodup
  lower : ∀ l, l ∈ p.lower ↔
    t.holds (-l) = true ∧ Seen p.seen l.var ∧ 0 < t.levelOf l.var ∧ t.levelOf l.var < t.level
  fixed : ∀ v, v ∈ p.fixed ↔ Seen p.seen v ∧ t.levelOf v = 0
  nodup_fixed : p.fixed.Nodup

/-- A progress in which a true literal is replaced by the explanation of its reason. -/
structure Resolves (k : Kernel) (p p' : Progress) (l : Literal) (ref : ClauseRef) (e : Stored)
    (why : List Literal) : Prop where
  holds : k.trail.holds l = true
  met : Seen p.seen l.var
  stored : k.store.get? ref = some e
  forces : e.constraint.Forces k.trail l
  explains : e.constraint.ExplainsForced k.trail l why
  seen : ∀ v, Seen p'.seen v ↔ (Seen p.seen v ∧ v ≠ l.var) ∨ ∃ u ∈ why, u.var = v
  steps : p'.steps = p.steps ++ [(l.var, ref)]

variable {t : Trail} {k : Kernel} {n : Nat} {p p' : Progress} {cur : List Var} {l : Literal}
  {ls : List Literal} {v : Var}

/-! ## Taking in literals -/

theorem seen_put {seen : VarMap Bool} {b : Bool} (hv : v.id < seen.cells.size) (w : Var) :
    Seen (seen.put v b) w ↔ if w = v then b = true else Seen seen w := by
  unfold Seen
  rw [VarMap.getD_put]
  by_cases hw : w = v
  · simp [hw, hv]
  · simp [hw]

theorem seen_put_true {seen : VarMap Bool} (hv : v.id < seen.cells.size) (w : Var) :
    Seen (seen.put v true) w ↔ Seen seen w ∨ w = v := by
  rw [seen_put hv]
  by_cases hw : w = v
  · simp [hw]
  · simp [hw]

theorem seen_put_false {seen : VarMap Bool} (hv : v.id < seen.cells.size) (w : Var) :
    Seen (seen.put v false) w ↔ Seen seen w ∧ w ≠ v := by
  rw [seen_put hv]
  by_cases hw : w = v
  · simp [hw]
  · simp [hw]

/-- Meeting a new variable adds it to the list of its level. -/
theorem absorb_eq_ok (ht : t.Valid) (h : Tracks t n p cur) (hlev : 0 < t.level)
    (hl : t.holds l = true) (hpos : t.place l.var < n) (ha : absorb t p l = .ok p') :
    (∃ cur', Tracks t n p' cur') ∧ (∀ v, Seen p'.seen v ↔ Seen p.seen v ∨ v = l.var) ∧
      p'.steps = p.steps := by
  obtain ⟨b, hb, ha⟩ := bind_eq_ok_iff.1 ha
  obtain ⟨m, hm, hneg⟩ := ht.holds_iff.1 hl
  have hcell := VarMap.lt_size_of_get hb
  have hsees : Seen p.seen l.var ↔ b = true := by
    unfold Seen
    rw [VarMap.getD_of_get hb]
  split at ha
  · next hb' =>
    obtain rfl := Except.ok.inj ha
    refine ⟨⟨cur, h⟩, fun v => ⟨Or.inl, ?_⟩, rfl⟩
    rintro (hv | rfl)
    · exact hv
    · exact hsees.2 hb'
  · next hb' =>
    have hnot : ¬ Seen p.seen l.var := fun hs => hb' (hsees.1 hs)
    have hseen := seen_put_true hcell
    have hassigned : ∀ v, Seen (p.seen.put l.var true) v → ∃ m, t.mark? v = some m ∧
        m.position < n := by
      intro v hv
      rcases (hseen v).1 hv with hv | rfl
      · exact h.assigned v hv
      · exact ⟨m, hm, Trail.place_eq hm ▸ hpos⟩
    -- a list of the variables with some property keeps track of them if the new one lacks it,
    have hsame : ∀ {P : Var → Prop}, ¬ P l.var → ∀ v,
        Seen (p.seen.put l.var true) v ∧ P v ↔ Seen p.seen v ∧ P v := by
      intro P hP v
      rw [hseen]
      constructor
      · rintro ⟨hv | rfl, hPv⟩
        · exact ⟨hv, hPv⟩
        · exact absurd hPv hP
      · exact fun hv => ⟨Or.inl hv.1, hv.2⟩
    -- and if the new one is added to it otherwise
    have hmore : ∀ {P : Var → Prop} {vs : List Var}, P l.var →
        (∀ v, v ∈ vs ↔ Seen p.seen v ∧ P v) → ∀ v,
        v ∈ vs ++ [l.var] ↔ Seen (p.seen.put l.var true) v ∧ P v := by
      intro P vs hP hvs v
      rw [List.mem_append, List.mem_singleton, hvs, hseen]
      constructor
      · rintro (hv | rfl)
        · exact ⟨Or.inl hv.1, hv.2⟩
        · exact ⟨Or.inr rfl, hP⟩
      · rintro ⟨hv | rfl, hPv⟩
        · exact Or.inl ⟨hv, hPv⟩
        · exact Or.inr rfl
    have hcurrent : t.levelOf l.var ≠ t.level → ∀ v, v ∈ cur ↔
        Seen (p.seen.put l.var true) v ∧ t.levelOf v = t.level := fun hne v =>
      (h.current v).trans (hsame (P := fun v => t.levelOf v = t.level) hne v).symm
    have hfixed : t.levelOf l.var ≠ 0 → ∀ v, v ∈ p.fixed ↔
        Seen (p.seen.put l.var true) v ∧ t.levelOf v = 0 := fun hne v =>
      (h.fixed v).trans (hsame (P := fun v => t.levelOf v = 0) hne v).symm
    have hlower : ¬ (0 < t.levelOf l.var ∧ t.levelOf l.var < t.level) → ∀ u, u ∈ p.lower ↔
        t.holds (-u) = true ∧ Seen (p.seen.put l.var true) u.var ∧ 0 < t.levelOf u.var ∧
          t.levelOf u.var < t.level := fun hne u => by
      rw [h.lower, hsame (P := fun v => 0 < t.levelOf v ∧ t.levelOf v < t.level) hne]
    simp only at ha
    split at ha
    · next hzero =>
      obtain rfl := Except.ok.inj ha
      have hnew : l.var ∉ p.fixed := fun hin => hnot ((h.fixed _).1 hin).1
      refine ⟨⟨cur, hassigned, h.nodup, hcurrent (by omega), h.pending, h.nodup_lower,
        hlower (by omega), hmore hzero h.fixed, ?_⟩, hseen, rfl⟩
      exact (List.perm_append_singleton l.var _).nodup_iff.2
        (List.nodup_cons.2 ⟨hnew, h.nodup_fixed⟩)
    · next hzero =>
      split at ha
      · next hcur =>
        obtain rfl := Except.ok.inj ha
        have hnew : l.var ∉ cur := fun hin => hnot ((h.current _).1 hin).1
        refine ⟨⟨cur ++ [l.var], hassigned, ?_, hmore hcur h.current, ?_, h.nodup_lower,
          hlower (by omega), hfixed hzero, h.nodup_fixed⟩, hseen, rfl⟩
        · exact (List.perm_append_singleton l.var cur).nodup_iff.2 (List.nodup_cons.2 ⟨hnew, h.nodup⟩)
        · simp [h.pending]
      · next hcur =>
        obtain rfl := Except.ok.inj ha
        have hle := ht.levelOf_le l.var
        have hnew : l.var ∉ p.lower.map Literal.var := by
          intro hin
          obtain ⟨u, hu, hv⟩ := List.mem_map.1 hin
          exact hnot (hv ▸ ((h.lower u).1 hu).2.1)
        refine ⟨⟨cur, hassigned, h.nodup, hcurrent hcur, h.pending, ?_, fun u => ?_,
          hfixed hzero, h.nodup_fixed⟩, hseen, rfl⟩
        · rw [List.map_append]
          exact (List.perm_append_singleton l.var _).nodup_iff.2
            (List.nodup_cons.2 ⟨hnew, h.nodup_lower⟩)
        · rw [List.mem_append, List.mem_singleton, h.lower, hseen]
          constructor
          · rintro (hu | rfl)
            · exact ⟨hu.1, Or.inl hu.2.1, hu.2.2⟩
            · refine ⟨by simpa using hl, Or.inr rfl, ?_⟩
              change 0 < t.levelOf l.var ∧ t.levelOf l.var < t.level
              omega
          · rintro ⟨hu, hs | hv, hlevs⟩
            · exact Or.inl ⟨hu, hs, hlevs⟩
            · -- both literals of a variable cannot be true
              right
              obtain ⟨m', hm', hneg'⟩ := ht.holds_neg_iff.1 hu
              rw [hv, hm] at hm'
              obtain rfl := Option.some.inj hm'
              obtain ⟨uv, un⟩ := u
              obtain ⟨lv, ln⟩ := l
              obtain rfl : uv = lv := hv
              have hun : un = !ln := by cases un <;> cases ln <;> simp_all
              rw [hun]
              rfl

theorem absorbAll_eq_ok (ht : t.Valid) (h : Tracks t n p cur) (hlev : 0 < t.level)
    (hls : ∀ l ∈ ls, t.holds l = true ∧ t.place l.var < n) (ha : absorbAll t p ls = .ok p') :
    (∃ cur', Tracks t n p' cur') ∧
      (∀ v, Seen p'.seen v ↔ Seen p.seen v ∨ ∃ l ∈ ls, l.var = v) ∧ p'.steps = p.steps := by
  induction ls generalizing p cur with
  | nil =>
    obtain rfl := Except.ok.inj ha
    exact ⟨⟨cur, h⟩, by simp, rfl⟩
  | cons l ls ih =>
    obtain ⟨hl, hls'⟩ := List.forall_mem_cons.1 hls
    obtain ⟨p₁, hp₁, ha⟩ := bind_eq_ok_iff.1 ha
    obtain ⟨⟨cur₁, h₁⟩, hseen₁, hsteps₁⟩ := absorb_eq_ok ht h hlev hl.1 hl.2 hp₁
    obtain ⟨hcur, hseen, hsteps⟩ := ih h₁ hls' ha
    refine ⟨hcur, fun v => ?_, hsteps.trans hsteps₁⟩
    rw [hseen, hseen₁, List.exists_mem_cons_iff, or_assoc, eq_comm]

/-! ## Resolving -/

/-- A seen variable that belongs to the current level is resolved no more. -/
theorem Tracks.unsee (h : Tracks t (n + 1) p cur) (hl : t.literals[n]? = some l) (ht : t.Valid)
    (hlev : 0 < t.level) (hcell : l.var.id < p.seen.cells.size) (hcur : t.levelOf l.var = t.level)
    (hmet : Seen p.seen l.var) :
    Tracks t n { p with seen := p.seen.put l.var false, pending := p.pending - 1 }
      (cur.erase l.var) := by
  have hseen := seen_put_false hcell
  have hin : l.var ∈ cur := (h.current _).2 ⟨hmet, hcur⟩
  obtain ⟨m, hm, -, hpos⟩ := ht.marked hl
  refine ⟨fun v hv => ?_, h.nodup.erase _, fun v => ?_, ?_, h.nodup_lower, fun u => ?_, fun v => ?_,
    h.nodup_fixed⟩
  · obtain ⟨hv, hne⟩ := (hseen v).1 hv
    obtain ⟨m', hm', hlt⟩ := h.assigned v hv
    refine ⟨m', hm', Nat.lt_of_le_of_ne (Nat.le_of_lt_succ hlt) fun he => hne ?_⟩
    exact ht.mark_ext hm' hm (he.trans hpos.symm)
  · rw [h.nodup.mem_erase_iff, h.current]
    rw [hseen]
    tauto
  · change p.pending - 1 = _
    rw [h.pending, List.length_erase_of_mem hin]
  · rw [h.lower, hseen]
    constructor
    · rintro ⟨h1, h2, h3, h4⟩
      exact ⟨h1, ⟨h2, fun he => by rw [he] at h4; omega⟩, h3, h4⟩
    · exact fun hu => ⟨hu.1, hu.2.1.1, hu.2.2⟩
  · rw [h.fixed, hseen]
    constructor
    · rintro ⟨h1, h2⟩
      exact ⟨⟨h1, fun he => by rw [he] at h2; omega⟩, h2⟩
    · exact fun hv => ⟨hv.1.1, hv.2⟩

theorem Tracks.skip (h : Tracks t (n + 1) p cur) (ht : t.Valid) (hl : t.literals[n]? = some l)
    (hnot : ¬ Seen p.seen l.var) : Tracks t n p cur := by
  obtain ⟨m, hm, -, hpos⟩ := ht.marked hl
  refine ⟨fun v hv => ?_, h.nodup, h.current, h.pending, h.nodup_lower, h.lower, h.fixed,
    h.nodup_fixed⟩
  obtain ⟨m', hm', hlt⟩ := h.assigned v hv
  refine ⟨m', hm', Nat.lt_of_le_of_ne (Nat.le_of_lt_succ hlt) fun he => hnot ?_⟩
  rwa [ht.mark_ext hm' hm (he.trans hpos.symm)] at hv

/-- As long as a variable is pending, the latest literal belongs to the current level: the pending one
lies no later. -/
theorem Tracks.level_eq (h : Tracks t (n + 1) p cur) (ht : t.Valid) (hl : t.literals[n]? = some l)
    (hcur : cur ≠ []) : t.levelOf l.var = t.level := by
  obtain ⟨m, hm, -, hpos⟩ := ht.marked hl
  obtain ⟨v, hv⟩ := List.exists_mem_of_ne_nil cur hcur
  obtain ⟨hvs, hvl⟩ := (h.current v).1 hv
  obtain ⟨m', hm', hlt⟩ := h.assigned v hvs
  have hmono := ht.level_mono hm' hm (by omega)
  have hle := ht.level_le hm
  rw [Trail.levelOf_eq hm'] at hvl
  rw [Trail.levelOf_eq hm]
  omega

/-- No pending variable is lost while literals are taken in. -/
theorem Tracks.ne_nil {cur' : List Var} (h : Tracks t n p cur) (h' : Tracks t n p' cur')
    (hseen : ∀ v, Seen p.seen v → Seen p'.seen v) (hcur : cur ≠ []) : cur' ≠ [] := by
  intro hnil
  obtain ⟨v, hv⟩ := List.exists_mem_of_ne_nil cur hcur
  obtain ⟨hvs, hvl⟩ := (h.current v).1 hv
  have hin := (h'.current v).2 ⟨hseen v hvs, hvl⟩
  rw [hnil] at hin
  exact List.not_mem_nil hin

/-- The constraint that is the reason of a literal of the trail forced it. -/
theorem forced_of_reason {ref : ClauseRef} (hk : k.Sound) (hl : k.trail.literals[n]? = some l)
    (href : k.trail.reasonOf l.var = some ref) :
    ∃ e, k.store.get? ref = some e ∧ e.constraint.Forces k.trail l := by
  obtain ⟨m, hm, hneg, -⟩ := hk.trail.marked hl
  obtain ⟨m', hm', hreason⟩ := hk.trail.reasonOf_eq_some href
  obtain rfl := Option.some.inj (hm'.symm.trans hm)
  obtain ⟨e, he, hforces⟩ := hk.reasons hm hreason
  have hlit : (⟨l.var, m'.negative⟩ : Literal) = l := by rw [hneg]
  exact ⟨e, he, hlit ▸ hforces⟩

/-- The explanation of a forced literal consists of true literals before it. -/
theorem before_of_explains {c : Constraint} {why : List Literal} (ht : t.Valid)
    (hl : t.literals[n]? = some l) (h : c.ExplainsForced t l why) :
    ∀ u ∈ why, t.holds u = true ∧ t.place u.var < n := by
  intro u hu
  obtain ⟨m, hm, -, hpos⟩ := ht.marked hl
  obtain ⟨i, hi, hneg, hlt⟩ := (Constraint.falseBefore_iff ht).1 (h.member u hu).2
  rw [Trail.place_eq hm, hpos] at hlt
  change t.mark? u.var = some i at hi
  exact ⟨Trail.holds_of_mark hi (by simpa using hneg), (Trail.place_eq hi).symm ▸ hlt⟩

/-- What holds of the progress and is kept by every resolution step holds when a single literal of
the current level is left. -/
theorem resolveBack_eq_ok {P : Progress → Prop} (hk : k.Sound) (hlev : 0 < k.trail.level)
    (hstep : ∀ p p' l ref e why, P p → Resolves k p p' l ref e why → P p')
    (h : Tracks k.trail n p cur) (hcur : cur ≠ []) (hP : P p)
    (hr : resolveBack k.trail k.store n p = .ok (l, p')) :
    ∃ q i, P q ∧ q.steps = p'.steps ∧ Tracks k.trail i p' [] ∧ k.trail.holds l = true ∧
      k.trail.levelOf l.var = k.trail.level ∧
      ∀ v, Seen q.seen v ↔ Seen p'.seen v ∨ v = l.var := by
  induction n generalizing p cur with
  | zero => exact absurd hr (by simp [resolveBack])
  | succ n ih =>
    rw [resolveBack] at hr
    split at hr
    · exact absurd hr (by simp)
    · next l' hl' =>
      obtain ⟨m, hm, hneg, -⟩ := hk.trail.marked hl'
      have htrue : k.trail.holds l' = true := Trail.holds_of_mark hm hneg
      obtain ⟨b, hb, hr⟩ := bind_eq_ok_iff.1 hr
      have hcell := VarMap.lt_size_of_get hb
      have hseen : Seen p.seen l'.var ↔ b = true := by
        unfold Seen
        rw [VarMap.getD_of_get hb]
      cases b with
      | false =>
        exact ih (h.skip hk.trail hl' fun hs => absurd (hseen.1 hs) (by simp)) hcur hP hr
      | true =>
        have hmet := hseen.2 rfl
        have hlevel := h.level_eq hk.trail hl' hcur
        have hunseen := h.unsee hl' hk.trail hlev hcell hlevel hmet
        simp only [Bool.not_true, Bool.false_eq_true, if_false] at hr
        obtain ⟨_, -, hr⟩ := bind_eq_ok_iff.1 hr
        split at hr
        · next hzero =>
          obtain ⟨rfl, rfl⟩ := Prod.mk.inj (Except.ok.inj hr)
          have hnil : cur.erase l'.var = [] := by
            have := hunseen.pending
            rw [hzero] at this
            exact List.eq_nil_of_length_eq_zero this.symm
          refine ⟨p, n, hP, rfl, hnil ▸ hunseen, htrue, hlevel, fun v => ?_⟩
          rw [seen_put_false hcell]
          by_cases hv : v = l'.var
          · simp [hv, hmet]
          · simp [hv]
        · next hzero =>
          split at hr
          · exact absurd hr (by simp)
          · next ref href =>
            obtain ⟨e, he, hrest⟩ := bind_eq_ok_iff.1 hr
            obtain ⟨why, hwhy, hrest⟩ := bind_eq_ok_iff.1 hrest
            obtain ⟨p₁, hp₁, hback⟩ := bind_eq_ok_iff.1 hrest
            rw [Store.get_eq_ok] at he
            obtain ⟨e', he', hforces⟩ := forced_of_reason hk hl' href
            obtain rfl := Option.some.inj (he'.symm.trans he)
            have hexplains := Constraint.explain_forced hk.trail (hk.shape he) hforces htrue hwhy
            obtain ⟨⟨cur₁, h₁⟩, hseen₁, hsteps₁⟩ := absorbAll_eq_ok hk.trail hunseen hlev
              (before_of_explains hk.trail hl' hexplains) hp₁
            have hne : cur.erase l'.var ≠ [] := fun he =>
              hzero (hunseen.pending.trans (by rw [he]; rfl))
            refine ih (p := { p₁ with steps := p₁.steps ++ [(l'.var, ref)] })
              ⟨h₁.assigned, h₁.nodup, h₁.current, h₁.pending, h₁.nodup_lower, h₁.lower, h₁.fixed,
                h₁.nodup_fixed⟩
              (hunseen.ne_nil h₁ (fun v hv => (hseen₁ v).2 (Or.inl hv)) hne)
              (hstep p _ l' ref e' why hP ?_) hback
            refine ⟨htrue, hmet, he, hforces, hexplains, fun v => ?_, ?_⟩
            · rw [hseen₁, seen_put_false hcell]
            · rw [hsteps₁]

/-! ## Arranging the learnt clause -/

theorem lastMaximum_eq_none {xs : List Nat} (h : lastMaximum xs = none) : xs = [] := by
  cases xs with
  | nil => rfl
  | cons x xs =>
    rw [lastMaximum] at h
    split at h
    · split at h <;> exact absurd h (by simp)
    · exact absurd h (by simp)

theorem lastMaximum_eq_some {xs : List Nat} {i m : Nat} (h : lastMaximum xs = some (i, m)) :
    xs[i]? = some m ∧ ∀ x ∈ xs, x ≤ m := by
  induction xs generalizing i m with
  | nil => exact absurd h (by simp [lastMaximum])
  | cons x xs ih =>
    rw [lastMaximum] at h
    split at h
    · next j y hj =>
      obtain ⟨hget, hle⟩ := ih hj
      split at h
      · next hxy =>
        obtain ⟨rfl, rfl⟩ := Prod.mk.inj (Option.some.inj h)
        exact ⟨by simpa using hget, List.forall_mem_cons.2 ⟨hxy, hle⟩⟩
      · next hxy =>
        obtain ⟨rfl, rfl⟩ := Prod.mk.inj (Option.some.inj h)
        refine ⟨rfl, List.forall_mem_cons.2 ⟨Nat.le_refl _, fun z hz => ?_⟩⟩
        have := hle z hz
        omega
    · next hnone =>
      obtain ⟨rfl, rfl⟩ := Prod.mk.inj (Option.some.inj h)
      rw [lastMaximum_eq_none hnone]
      simp

theorem bringToFront_eq {i : Nat} (h : ls[i]? = some l) :
    ∃ rest, bringToFront i ls = l :: rest ∧ (l :: rest).Perm ls := by
  cases ls with
  | nil => exact absurd h (by simp)
  | cons x xs =>
    cases i with
    | zero =>
      obtain rfl : x = l := by simpa using h
      exact ⟨xs, rfl, List.Perm.refl _⟩
    | succ j =>
      have hj : xs[j]? = some l := by simpa using h
      obtain ⟨hlt, hget⟩ := List.getElem?_eq_some_iff.1 hj
      refine ⟨xs.set j x, by simp [bringToFront, hj], ?_⟩
      have hset : (xs.set j x).Perm (x :: xs.eraseIdx j) := List.set_perm_cons_eraseIdx hlt x
      have hback : (l :: xs.eraseIdx j).Perm xs := hget ▸ List.getElem_cons_eraseIdx_perm hlt
      exact (hset.cons l).trans ((List.Perm.swap x l _).trans (hback.cons x))

/-- The literals of lower levels, the first one of the level to return to. -/
structure Arranged (t : Trail) (lower others : List Literal) (level : Nat) : Prop where
  perm : others.Perm lower
  level_le : ∀ l ∈ others, t.levelOf l.var ≤ level
  first : ∀ m ms, others = m :: ms → t.levelOf m.var = level
  none : others = [] → level = 0

theorem arrange_spec (t : Trail) (lower : List Literal) :
    Arranged t lower (arrange t lower).1 (arrange t lower).2 := by
  unfold arrange
  split
  · next i level h =>
    obtain ⟨hget, hle⟩ := lastMaximum_eq_some h
    rw [List.getElem?_map, Option.map_eq_some_iff] at hget
    obtain ⟨l, hl, hlev⟩ := hget
    obtain ⟨rest, heq, hperm⟩ := bringToFront_eq hl
    simp only [heq]
    refine ⟨hperm, fun u hu => hle _ (List.mem_map_of_mem (hperm.mem_iff.1 hu)), ?_, by simp⟩
    intro m ms hms
    rw [← (List.cons.inj hms).1, hlev]
  · next h =>
    have hnil : lower = [] := by simpa using lastMaximum_eq_none h
    exact ⟨by rw [hnil], by simp, by simp, fun _ => rfl⟩

/-! ## The whole analysis -/

/-- What an analysis gives: the negation of a true literal of the current level, followed by false
literals of lower levels above 0; the first of them has the level to return to. -/
structure Learns (t : Trail) (a : Analysis) : Prop where
  asserting : ∃ u others, a.learnt = -u :: others ∧ t.holds u = true ∧
    t.levelOf u.var = t.level ∧
    (∀ l ∈ others, t.holds (-l) = true ∧ 0 < t.levelOf l.var ∧ t.levelOf l.var ≤ a.level) ∧
    (∀ m ms, others = m :: ms → t.levelOf m.var = a.level) ∧ (others = [] → a.level = 0)
  level_lt : a.level < t.level
  distinct : (a.learnt.map Literal.var).Nodup
  fixed : ∀ v ∈ a.fixed, ∃ m, t.mark? v = some m ∧ m.level = 0
  nodup_fixed : a.fixed.Nodup

/-- All literals of the learnt clause are false, and above level 0. -/
theorem Learns.falsified {a : Analysis} (h : Learns t a) (hlev : 0 < t.level) :
    ∀ l ∈ a.learnt, t.holds (-l) = true ∧ 0 < t.levelOf l.var := by
  obtain ⟨u, others, hlearnt, hu, hulev, hothers, -⟩ := h.asserting
  intro l hl
  rw [hlearnt] at hl
  rcases List.mem_cons.1 hl with rfl | hl
  · rw [Literal.neg_neg, Literal.neg_var]
    exact ⟨hu, hulev ▸ hlev⟩
  · exact ⟨(hothers l hl).1, (hothers l hl).2.1⟩

theorem seen_unsee {seen : VarMap Bool} {vs : List Var} :
    Seen (unsee seen vs) v ↔ Seen seen v ∧ v ∉ vs := by
  unfold Seen unsee
  rw [VarMap.getD_foldl_put]
  by_cases hv : v ∈ vs
  · simp [hv]
  · simp [hv]

theorem tracks_nil {analyzer : Analyzer} (hclear : analyzer.Clear) :
    Tracks t n { analyzer with } [] where
  assigned v hv := absurd hv (hclear.unseen v)
  nodup := List.nodup_nil
  current v := by simp [hclear.unseen]
  pending := rfl
  nodup_lower := List.nodup_nil
  lower l := by simp [hclear.unseen]
  fixed v := by simp [hclear.fixed, hclear.unseen]
  nodup_fixed := hclear.fixed ▸ List.nodup_nil

theorem before_of_violated {c : Constraint} {why : List Literal} (ht : t.Valid)
    (h : c.ExplainsViolated t why) :
    ∀ u ∈ why, t.holds u = true ∧ t.place u.var < t.literals.size := by
  intro u hu
  have hholds := (h.member u hu).2
  obtain ⟨m, hm⟩ := Trail.exists_mark hholds
  exact ⟨hholds, (Trail.place_eq hm).symm ▸ ht.position_lt hm⟩

/-- After the explanation of a clash was taken in, a variable of the current level is pending. -/
theorem absorb_clash {conflict : ClauseRef} {analyzer : Analyzer} {e : Stored} {why : List Literal}
    (hk : k.Clash conflict) (hlev : 0 < k.trail.level) (hclear : analyzer.Clear)
    (he : k.store.get? conflict = some e) (hexplains : e.constraint.ExplainsViolated k.trail why)
    (hp : absorbAll k.trail { analyzer with } why = .ok p) :
    (∃ cur, Tracks k.trail k.trail.literals.size p cur ∧ cur ≠ []) ∧
      (∀ v, Seen p.seen v ↔ ∃ u ∈ why, u.var = v) ∧ p.steps = [] := by
  have ht := hk.sound.trail
  obtain ⟨⟨cur, htracks⟩, hseen, hsteps⟩ :=
    absorbAll_eq_ok ht (tracks_nil hclear) hlev (before_of_violated ht hexplains) hp
  have hseen' : ∀ v, Seen p.seen v ↔ ∃ u ∈ why, u.var = v := by
    intro v
    rw [hseen]
    simp [hclear.unseen]
  obtain ⟨e', he', -, w, hw, hwfalse, hwlev⟩ := hk.violated
  obtain rfl := Option.some.inj (he'.symm.trans he)
  refine ⟨⟨cur, htracks, fun hnil => ?_⟩, hseen', hsteps⟩
  have hin := (htracks.current w.var).2 ⟨(hseen' _).2 ⟨-w, hexplains.complete w hw hwfalse, rfl⟩, hwlev⟩
  rw [hnil] at hin
  exact List.not_mem_nil hin

/-- What holds of the explanation of the violated constraint and is kept by every resolution step
holds of the learnt clause together with the variables at level 0. -/
theorem of_eq_ok {P : Progress → Prop} {conflict : ClauseRef} {analyzer analyzer' : Analyzer}
    {a : Analysis} (hk : k.Clash conflict) (hclear : analyzer.Clear)
    (hstart : ∀ p e why, k.store.get? conflict = some e →
      e.constraint.ExplainsViolated k.trail why → e.constraint.Violated k.trail →
      (∀ v, Seen p.seen v ↔ ∃ u ∈ why, u.var = v) → p.steps = [] → P p)
    (hstep : ∀ p p' l ref e why, P p → Resolves k p p' l ref e why → P p')
    (h : of k.trail k.store analyzer conflict = .ok (a, analyzer')) :
    Learns k.trail a ∧ analyzer'.Clear ∧ ∃ q, P q ∧ q.steps = a.steps ∧
      ∀ v, Seen q.seen v ↔ (∃ l ∈ a.learnt, l.var = v) ∨ v ∈ a.fixed := by
  obtain ⟨_, hreq, h⟩ := bind_eq_ok_iff.1 h
  have hlev : 0 < k.trail.level := by simpa using require_eq_ok_iff.1 hreq
  obtain ⟨e, he, h⟩ := bind_eq_ok_iff.1 h
  obtain ⟨why, hwhy, h⟩ := bind_eq_ok_iff.1 h
  obtain ⟨p, hp, h⟩ := bind_eq_ok_iff.1 h
  obtain ⟨⟨u, p'⟩, hback, h⟩ := bind_eq_ok_iff.1 h
  have harr := arrange_spec k.trail p'.lower
  dsimp only at h
  generalize arrange k.trail p'.lower = arranged at h harr
  obtain ⟨others, level⟩ := arranged
  replace harr : Arranged k.trail p'.lower others level := harr
  obtain ⟨rfl, rfl⟩ := Prod.mk.inj (Except.ok.inj h)
  rw [Store.get_eq_ok] at he
  obtain ⟨e', he', hviolated, -⟩ := hk.violated
  obtain rfl := Option.some.inj (he'.symm.trans he)
  have hexplains := Constraint.explain_violated hwhy hviolated
  have hvalid := hk.sound.trail
  obtain ⟨⟨cur, htracks, hcur⟩, hseen', hsteps⟩ := absorb_clash hk hlev hclear he hexplains hp
  obtain ⟨q, i, hq, hqsteps, htracks', hu, hulev, hqseen⟩ := resolveBack_eq_ok hk.sound hlev hstep
    htracks hcur (hstart p e' why he hexplains hviolated hseen' hsteps) hback
  have hother : ∀ l, l ∈ others ↔ k.trail.holds (-l) = true ∧
      Seen p'.seen l.var ∧ 0 < k.trail.levelOf l.var ∧ k.trail.levelOf l.var < k.trail.level := by
    intro l
    rw [harr.perm.mem_iff, htracks'.lower]
  -- a seen variable is either at level 0 or at a lower level
  have hcases : ∀ v, Seen p'.seen v →
      (k.trail.levelOf v = 0 ∨ ∃ l ∈ others, l.var = v) := by
    intro v hv
    obtain ⟨m, hm, -⟩ := htracks'.assigned v hv
    by_cases hzero : k.trail.levelOf v = 0
    · exact Or.inl hzero
    · right
      have hne : k.trail.levelOf v ≠ k.trail.level := fun he =>
        List.not_mem_nil ((htracks'.current v).2 ⟨hv, he⟩)
      have hle := hvalid.levelOf_le v
      refine ⟨-(⟨v, m.negative⟩ : Literal), (hother _).2 ⟨?_, hv, ?_, ?_⟩, rfl⟩
      · rw [Literal.neg_neg]
        exact Trail.holds_mk hm
      · change 0 < k.trail.levelOf v
        omega
      · change k.trail.levelOf v < k.trail.level
        omega
  refine ⟨⟨⟨u, _, rfl, hu, hulev, fun l hl => ?_, harr.first, harr.none⟩, ?_, ?_, fun v hv => ?_,
    htracks'.nodup_fixed⟩, ⟨?_, rfl⟩, q, hq, hqsteps, fun v => ?_⟩
  · obtain ⟨h1, -, h2, -⟩ := (hother l).1 hl
    exact ⟨h1, h2, harr.level_le l hl⟩
  · change level < k.trail.level
    cases hothers : others with
    | nil =>
      rw [harr.none hothers]
      exact hlev
    | cons m ms =>
      rw [← harr.first m ms hothers]
      exact ((hother m).1 (hothers ▸ List.mem_cons_self)).2.2.2
  · rw [List.map_cons, List.nodup_cons]
    refine ⟨fun hin => ?_, (harr.perm.map _).nodup_iff.2 htracks'.nodup_lower⟩
    obtain ⟨l, hl, hv⟩ := List.mem_map.1 hin
    have hlt := ((hother l).1 hl).2.2.2
    rw [hv, Literal.neg_var, hulev] at hlt
    exact Nat.lt_irrefl _ hlt
  · obtain ⟨hvs, hvl⟩ := (htracks'.fixed v).1 hv
    obtain ⟨m, hm, -⟩ := htracks'.assigned v hvs
    exact ⟨m, hm, (Trail.levelOf_eq hm).symm.trans hvl⟩
  · intro v hv
    replace hv := seen_unsee.1 hv
    rw [seen_unsee] at hv
    obtain ⟨⟨hvs, hnf⟩, hnl⟩ := hv
    rcases hcases v hvs with hzero | ⟨l, hl, rfl⟩
    · exact hnf ((htracks'.fixed v).2 ⟨hvs, hzero⟩)
    · exact hnl (List.mem_map_of_mem (harr.perm.mem_iff.1 hl))
  · rw [hqseen]
    constructor
    · rintro (hv | rfl)
      · rcases hcases v hv with hzero | ⟨l, hl, hlv⟩
        · exact Or.inr ((htracks'.fixed v).2 ⟨hv, hzero⟩)
        · exact Or.inl ⟨l, List.mem_cons_of_mem _ hl, hlv⟩
      · exact Or.inl ⟨-u, List.mem_cons_self, rfl⟩
    · rintro (⟨l, hl, rfl⟩ | hv)
      · rcases List.mem_cons.1 hl with rfl | hl
        · exact Or.inr rfl
        · exact Or.inl ((hother l).1 hl).2.1
      · exact Or.inl ((htracks'.fixed v).1 hv).1

/-- The antecedents are the violated constraint and the reasons that it was resolved with. -/
theorem antecedents_of {s : Store} {conflict : ClauseRef} {analyzer analyzer' : Analyzer} {a : Analysis}
    (h : of t s analyzer conflict = .ok (a, analyzer')) :
    a.antecedents = conflict :: a.steps.map (·.2) := by
  obtain ⟨-, -, h⟩ := bind_eq_ok_iff.1 h
  obtain ⟨e, -, h⟩ := bind_eq_ok_iff.1 h
  obtain ⟨why, -, h⟩ := bind_eq_ok_iff.1 h
  obtain ⟨p, -, h⟩ := bind_eq_ok_iff.1 h
  obtain ⟨⟨uip, p'⟩, -, h⟩ := bind_eq_ok_iff.1 h
  obtain ⟨rfl, -⟩ := Prod.mk.inj (Except.ok.inj h)
  rfl

/-! ## The learnt clause follows -/

/-- The assignment satisfies the constraints stored at these places. -/
def Grants (s : Store) (refs : List ClauseRef) (a : Assignment) : Prop :=
  ∀ ref ∈ refs, ∀ e, s.get? ref = some e → e.constraint.demand.Holds a

/-- Not all seen literals can be true. -/
def Blocks (t : Trail) (a : Assignment) (p : Progress) : Prop :=
  ¬ ∀ l, t.holds l = true → Seen p.seen l.var → a.makes l = true

/-- An assignment that satisfies the antecedents and respects the literals at level 0 satisfies the
learnt clause. -/
theorem entails_of_antecedents {conflict : ClauseRef} {analyzer analyzer' : Analyzer} {an : Analysis}
    {a : Assignment} (hk : k.Clash conflict) (hclear : analyzer.Clear)
    (h : of k.trail k.store analyzer conflict = .ok (an, analyzer'))
    (hs : Grants k.store an.antecedents a) (ha : a.RespectsRoot k.trail) :
    a.Satisfies an.learnt := by
  obtain ⟨hlearns, -, q, hq, hqsteps, hqseen⟩ := of_eq_ok
    (P := fun p => Grants k.store (conflict :: p.steps.map (·.2)) a → Blocks k.trail a p) hk hclear
    (by
      intro p e why he hexplains hviolated hseen _ hgrants hall
      refine hviolated.not_holds (fun l hl hfalse => ?_)
        (hgrants conflict List.mem_cons_self e he)
      exact hall (-l) hfalse ((hseen _).2 ⟨-l, hexplains.complete l hl hfalse, rfl⟩))
    (by
      intro p p' l ref e why hp hr hgrants hall
      rw [hr.steps, List.map_append, ← List.cons_append] at hgrants
      refine hp (fun r hin => hgrants r (List.mem_append_left _ hin)) fun m hm hmseen => ?_
      by_cases hml : m.var = l.var
      · rw [hk.sound.trail.eq_of_holds hm hr.holds hml]
        have href := hgrants ref (List.mem_append_right _ List.mem_cons_self) e hr.stored
        refine hr.forces.makes hk.sound.trail hr.holds href fun x hx hxf => ?_
        have hin := hr.explains.complete x hx hxf
        obtain ⟨i, hi, hneg, -⟩ := (Constraint.falseBefore_iff hk.sound.trail).1 hxf
        exact hall (-x) (Trail.holds_neg_of_mark hi hneg) ((hr.seen _).2 (Or.inr ⟨-x, hin, rfl⟩))
      · exact hall m hm ((hr.seen _).2 (Or.inl ⟨hmseen, hml⟩))) h
  have hlev : 0 < k.trail.level := Nat.lt_of_le_of_lt (Nat.zero_le _) hlearns.level_lt
  rw [antecedents_of h, ← hqsteps] at hs
  by_contra hno
  refine hq hs fun l hl hlseen => ?_
  rcases (hqseen l.var).1 hlseen with ⟨x, hx, hxv⟩ | hv
  · -- the literal is the negation of one of the learnt clause
    have hlx : l = -x := hk.sound.trail.eq_of_holds hl (hlearns.falsified hlev x hx).1 hxv.symm
    by_contra hmake
    refine hno ⟨x, hx, ?_⟩
    rw [hlx] at hmake
    simpa using hmake
  · obtain ⟨m, hm, hzero⟩ := hlearns.fixed _ hv
    exact ha l hl ((Trail.levelOf_eq hm).trans hzero)

/-- An assignment that satisfies the stored constraints and respects the literals at level 0 satisfies
the learnt clause. -/
theorem of_entails {conflict : ClauseRef} {analyzer analyzer' : Analyzer} {an : Analysis}
    {a : Assignment} (hk : k.Clash conflict) (hclear : analyzer.Clear)
    (h : of k.trail k.store analyzer conflict = .ok (an, analyzer')) (hs : Kernel.Satisfied k.store a)
    (ha : a.RespectsRoot k.trail) : a.Satisfies an.learnt :=
  entails_of_antecedents hk hclear h (fun ref _ e he => hs ref e he) ha

end Analysis
end Cdcl
