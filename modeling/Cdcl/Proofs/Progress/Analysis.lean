import Cdcl.Proofs.Analysis
import Cdcl.Proofs.Progress.Reading
import Cdcl.Proofs.Progress.Room
import Cdcl.Proofs.Trail.Levels

/-!
# Conflict analysis does not get stuck

A clash above level 0 can be analysed. While more than one variable of the current level is pending,
the latest of them is not the first literal of its level, so it has a reason; and as long as one is
pending, the walk along the trail meets it (`resolveBack_succeeds`). Both watched literals of a violated
clause belong to the current level, so at least one step is taken (`steps_ne_nil`).
-/

namespace Cdcl
set_option autoImplicit false

theorem Analyzer.grow_succeeds {vars : Nat} (m : Analyzer) (hvars : vars < Event.varLimit) :
    ∃ m', m.grow vars = .ok m' ∧ m'.seen.Room vars := by
  obtain ⟨seen, hseen, hroom⟩ := VarMap.grow_succeeds m.seen false hvars (show 1 ≤ 24 by decide)
  exact ⟨_, bind_eq_ok_iff.2 ⟨seen, hseen, rfl⟩, hroom⟩

namespace Analysis

variable {t : Trail} {k : Kernel} {n : Nat} {p : Progress} {cur : List Var} {l : Literal}
  {ls : List Literal} {conflict : ClauseRef} {seen : VarMap Bool}
  {analyzer analyzer' : Analyzer} {a : Analysis}

/-- The table has a cell for every variable, and only variables of the trail were met. -/
structure Fits (t : Trail) (p : Progress) : Prop where
  room : p.seen.Room t.vars
  met : ∀ v ∈ p.met, 1 ≤ v.id ∧ v.id ≤ t.vars

/-! ## Taking in literals -/

theorem absorb_succeeds (h : Fits t p) (hl : t.Names l) :
    ∃ p', absorb t p l = .ok p' ∧ Fits t p' := by
  obtain ⟨b, hb⟩ := VarMap.Room.get (h.room l.var hl)
  have hroom : (p.seen.put l.var true).Room t.vars :=
    h.room.of_size (Nat.le_of_eq VarMap.size_put.symm)
  have hmet : ∀ v ∈ p.met ++ [l.var], 1 ≤ v.id ∧ v.id ≤ t.vars := by
    intro v hv
    rcases List.mem_append.1 hv with hv | hv
    · exact h.met v hv
    · exact List.mem_singleton.1 hv ▸ hl
  cases b with
  | true => exact ⟨p, bind_eq_ok_iff.2 ⟨true, hb, rfl⟩, h⟩
  | false =>
    by_cases hzero : t.levelOf l.var = 0
    · exact ⟨_, bind_eq_ok_iff.2 ⟨false, hb, if_pos hzero⟩, hroom, h.met⟩
    · by_cases hcur : t.levelOf l.var = t.level
      · exact ⟨_, bind_eq_ok_iff.2 ⟨false, hb, (if_neg hzero).trans (if_pos hcur)⟩, hroom, hmet⟩
      · exact ⟨_, bind_eq_ok_iff.2 ⟨false, hb, (if_neg hzero).trans (if_neg hcur)⟩, hroom, hmet⟩

theorem absorbAll_succeeds (h : Fits t p) (hls : ∀ l ∈ ls, t.Names l) :
    ∃ p', absorbAll t p ls = .ok p' ∧ Fits t p' := by
  induction ls generalizing p with
  | nil => exact ⟨p, rfl, h⟩
  | cons l ls ih =>
    obtain ⟨hl, hls⟩ := List.forall_mem_cons.1 hls
    obtain ⟨p₁, hp₁, h₁⟩ := absorb_succeeds h hl
    obtain ⟨p', hp', h'⟩ := ih h₁ hls
    exact ⟨p', bind_eq_ok_iff.2 ⟨p₁, hp₁, hp'⟩, h'⟩

/-! ## Resolving -/

/-- A literal of the current level has a reason if another one of this level lies before it. -/
theorem exists_reason (ht : t.Valid) (hdecided : t.Decided) (hlev : 0 < t.level)
    (hl : t.literals[n]? = some l) (h : Tracks t n p cur) (hcur : cur ≠ [])
    (hlevel : t.levelOf l.var = t.level) : ∃ ref, t.reasonOf l.var = some ref := by
  obtain ⟨m, hm, -, hpos⟩ := ht.marked hl
  obtain ⟨v, hv⟩ := List.exists_mem_of_ne_nil cur hcur
  obtain ⟨hseen, hvlevel⟩ := (h.current v).1 hv
  obtain ⟨m', hm', hlt⟩ := h.assigned v hseen
  rw [Trail.levelOf_eq hm] at hlevel
  rw [Trail.levelOf_eq hm'] at hvlevel
  obtain ⟨ref, href⟩ := hdecided.exists_reason ht hm hm' (hpos.symm ▸ hlt)
    (hvlevel.trans hlevel.symm) (hlevel.symm ▸ hlev)
  exact ⟨ref, (Trail.reasonOf_eq hm).trans href⟩

/-- As long as a variable of the current level is pending, the walk along the trail goes on to its
end. -/
theorem resolveBack_succeeds (hk : k.Sound) (hlev : 0 < k.trail.level)
    (hdecided : k.trail.Decided) (hvars : k.trail.vars < Var.signedLimit)
    (hn : n ≤ k.trail.literals.size) (h : Tracks k.trail n p cur) (hcur : cur ≠ [])
    (hfits : Fits k.trail p) :
    ∃ l p', resolveBack k.trail k.store n p = .ok (l, p') ∧ Fits k.trail p' := by
  have ht := hk.trail
  induction n generalizing p cur with
  | zero =>
    obtain ⟨v, hv⟩ := List.exists_mem_of_ne_nil cur hcur
    obtain ⟨m, -, hlt⟩ := h.assigned v ((h.current v).1 hv).1
    exact absurd hlt (Nat.not_lt_zero _)
  | succ n ih =>
    obtain ⟨l, hl⟩ : ∃ l, k.trail.literals[n]? = some l := ⟨_, Array.getElem?_eq_getElem hn⟩
    obtain ⟨m, hm, hneg, -⟩ := ht.marked hl
    have hname : k.trail.Names l := ht.named hm
    obtain ⟨b, hb⟩ := VarMap.Room.get (hfits.room l.var hname)
    have hcell := VarMap.lt_size_of_get hb
    have hseen : Seen p.seen l.var ↔ b = true := by
      unfold Seen
      rw [VarMap.getD_of_get hb]
    simp only [resolveBack, hl]
    cases b with
    | false =>
      obtain ⟨l', p', hback, hfits'⟩ :=
        ih (Nat.le_of_succ_le hn) (h.skip ht hl fun hs => absurd (hseen.1 hs) (by simp)) hcur hfits
      exact ⟨l', p', bind_eq_ok_iff.2 ⟨false, hb, hback⟩, hfits'⟩
    | true =>
      have hlevel := h.level_eq ht hl hcur
      have hunseen := h.unsee hl ht hlev hcell hlevel (hseen.2 rfl)
      have hfits₁ : Fits k.trail
          { p with seen := p.seen.put l.var false, pending := p.pending - 1 } :=
        ⟨hfits.room.of_size (Nat.le_of_eq VarMap.size_put.symm), hfits.met⟩
      have hpending : require (decide (0 < p.pending)) .subtractionOverflow = .ok () :=
        require_eq_ok_iff.2 (decide_eq_true (h.pending ▸ List.length_pos_of_ne_nil hcur))
      by_cases hlast : p.pending - 1 = 0
      · exact ⟨l, _, bind_eq_ok_iff.2 ⟨true, hb, bind_eq_ok_iff.2 ⟨(), hpending, if_pos hlast⟩⟩,
          hfits₁⟩
      · have hcur₁ : cur.erase l.var ≠ [] := fun he =>
          hlast (hunseen.pending.trans (by rw [he]; rfl))
        obtain ⟨ref, href⟩ := exists_reason ht hdecided hlev hl hunseen hcur₁ hlevel
        obtain ⟨e, he, hforces⟩ := forced_of_reason hk hl href
        have htrue : k.trail.holds l = true := Trail.holds_of_mark hm hneg
        obtain ⟨why, hwhy⟩ :=
          Constraint.explain_forced_succeeds ht (hk.named he) hvars hforces htrue
        have hbefore := before_of_explains ht hl
          (Constraint.explain_forced ht (hk.shape he) hforces htrue hwhy)
        obtain ⟨p₁, hp₁, hfits₂⟩ := absorbAll_succeeds hfits₁ fun u hu =>
          ht.names_of_holds (hbefore u hu).1
        obtain ⟨⟨cur₁, h₁⟩, hseen₁, -⟩ := absorbAll_eq_ok ht hunseen hlev hbefore hp₁
        have h₂ : Tracks k.trail n { p₁ with steps := p₁.steps ++ [(l.var, ref)] } cur₁ :=
          ⟨h₁.assigned, h₁.nodup, h₁.current, h₁.pending, h₁.nodup_lower, h₁.lower, h₁.fixed,
            h₁.nodup_fixed⟩
        obtain ⟨l', p', hback, hfits'⟩ := ih (Nat.le_of_succ_le hn) h₂
          (hunseen.ne_nil h₁ (fun v hv => (hseen₁ v).2 (Or.inl hv)) hcur₁) ⟨hfits₂.room, hfits₂.met⟩
        rw [href]
        refine ⟨l', p', bind_eq_ok_iff.2 ⟨true, hb, bind_eq_ok_iff.2 ⟨(), hpending, ?_⟩⟩, hfits'⟩
        refine (if_neg hlast).trans ?_
        exact bind_eq_ok_iff.2 ⟨e, Store.get_eq_ok.2 he, bind_eq_ok_iff.2 ⟨why, hwhy,
          bind_eq_ok_iff.2 ⟨p₁, hp₁, hback⟩⟩⟩

/-! ## Whole analyses -/

theorem size_unsee {vs : List Var} : (unsee seen vs).cells.size = seen.cells.size := by
  unfold unsee
  induction vs generalizing seen with
  | nil => rfl
  | cons v vs ih => exact ih.trans VarMap.size_put

/-- A clash above level 0 can be analysed, and only variables of the trail are met. -/
theorem of_succeeds (hk : k.Clash conflict) (hlev : 0 < k.trail.level) (hdecided : k.trail.Decided)
    (hvars : k.trail.vars < Var.signedLimit) (hclear : analyzer.Clear)
    (hroom : analyzer.seen.Room k.trail.vars) :
    ∃ a analyzer', of k.trail k.store analyzer conflict = .ok (a, analyzer') ∧
      analyzer'.seen.Room k.trail.vars ∧
      ∀ v ∈ a.met, 1 ≤ v.id ∧ v.id ≤ k.trail.vars := by
  have ht := hk.sound.trail
  obtain ⟨e, he, hviolated, -⟩ := hk.violated
  obtain ⟨why, hwhy⟩ :=
    Constraint.explain_violated_succeeds ht (hk.sound.named he) hvars hviolated
  have hexplains := Constraint.explain_violated hwhy hviolated
  have hnames : ∀ u ∈ why, k.trail.Names u := fun u hu =>
    ht.names_of_holds (hexplains.member u hu).2
  obtain ⟨p, hp, hfits⟩ := absorbAll_succeeds (p := { analyzer with }) ⟨hroom, by simp⟩ hnames
  obtain ⟨⟨cur, htracks, hcur⟩, -⟩ := absorb_clash hk hlev hclear he hexplains hp
  obtain ⟨u, p', hback, hfits'⟩ := resolveBack_succeeds hk.sound hlev hdecided hvars
    (Nat.le_refl _) htracks hcur hfits
  refine ⟨_, _, bind_eq_ok_iff.2 ⟨(), require_eq_ok_iff.2 (decide_eq_true hlev),
    bind_eq_ok_iff.2 ⟨e, Store.get_eq_ok.2 he, bind_eq_ok_iff.2 ⟨why, hwhy,
      bind_eq_ok_iff.2 ⟨p, hp, bind_eq_ok_iff.2 ⟨_, hback, rfl⟩⟩⟩⟩⟩, ?_, hfits'.met⟩
  exact hfits'.room.of_size (Nat.le_of_eq (size_unsee.trans size_unsee).symm)

/-- Every watched literal of a violated clause became false at the current level: if it had been
propagated at an earlier one, the other watched literal would hold. -/
theorem level_watching {e : Stored} {w u : Literal} (hk : k.Clash conflict)
    (he : k.store.get? conflict = some e)
    (hfalse : ∀ l ∈ e.constraint.literals, k.trail.holds (-l) = true)
    (hw : w ∈ e.constraint.watching) (hu : u ∈ e.constraint.watching) (hne : u ≠ w) :
    k.trail.levelOf w.var = k.trail.level := by
  obtain ⟨m, hm, hneg⟩ := hk.sound.trail.holds_neg_iff.1 (hfalse w (Constraint.mem_literals.2 (Or.inl hw)))
  rw [Trail.levelOf_eq hm]
  refine Nat.le_antisymm (hk.sound.trail.level_le hm) (Nat.le_of_not_lt fun hlt => ?_)
  have hpassed : Kernel.Passed k.trail k.trail.level m :=
    ⟨hk.caught_up ▸ hk.sound.trail.position_lt hm, hlt⟩
  have htrue := (hk.stable conflict e he w hw m hm hneg hpassed u hu hne).1
  have hno := hfalse u (Constraint.mem_literals.2 (Or.inl hu))
  rw [hk.sound.trail.consistent htrue] at hno
  exact absurd hno (by simp)

/-- Two variables of the current level are still to be resolved, unless a step was taken. -/
def TwoCurrent (t : Trail) (p : Progress) : Prop :=
  p.steps = [] → ∃ v w, v ≠ w ∧ ∀ u, u = v ∨ u = w → Seen p.seen u ∧ t.levelOf u = t.level

/-- The analysis of a violated clause takes at least one step. -/
theorem steps_ne_nil {e : Stored} (hk : k.Clash conflict) (hclear : analyzer.Clear)
    (he : k.store.get? conflict = some e) (hd : e.constraint.degree = 1)
    (h : of k.trail k.store analyzer conflict = .ok (a, analyzer')) : a.steps ≠ [] := by
  obtain ⟨hlearns, -, q, hq, hqsteps, hqseen⟩ := of_eq_ok (P := TwoCurrent k.trail) hk hclear
    (by
      intro p e' why he' hexplains hviolated hseen _ _
      obtain rfl := Option.some.inj (he'.symm.trans he)
      have hvalid := hk.sound.shape he
      have hfalse := fun l hl => hviolated.falsified hd (k := l) hl
      obtain ⟨x, y, hxy⟩ : ∃ x y, e'.constraint.watching = [x, y] :=
        List.length_eq_two.1 (hvalid.length_watching.trans (by rw [hd]))
      have hne : x ≠ y := fun hx => by
        have := hvalid.nodup_watching
        simp [hxy, hx] at this
      have hx : x ∈ e'.constraint.watching := by simp [hxy]
      have hy : y ∈ e'.constraint.watching := by simp [hxy]
      have hin : ∀ w ∈ e'.constraint.watching, Seen p.seen w.var := fun w hw =>
        have hl := Constraint.mem_literals.2 (Or.inl hw)
        (hseen _).2 ⟨-w, hexplains.complete w hl (hfalse w hl), rfl⟩
      refine ⟨x.var, y.var, fun hv => hne ?_, ?_⟩
      · exact hvalid.eq_of_var_eq (Constraint.mem_literals.2 (Or.inl hx))
          (Constraint.mem_literals.2 (Or.inl hy)) hv
      · rintro u (rfl | rfl)
        · exact ⟨hin x hx, level_watching hk he hfalse hx hy hne.symm⟩
        · exact ⟨hin y hy, level_watching hk he hfalse hy hx hne⟩)
    (by
      intro p p' l ref e' why _ hr hnil
      rw [hr.steps] at hnil
      exact absurd hnil (by simp)) h
  intro hnil
  obtain ⟨v, w, hne, hboth⟩ := hq (hqsteps.trans hnil)
  obtain ⟨u, others, hlearnt, -, hulev, hothers, -⟩ := hlearns.asserting
  -- only the asserting literal belongs to the current level
  have honly : ∀ x, x = v ∨ x = w → x = u.var := by
    intro x hx
    obtain ⟨hxs, hxl⟩ := hboth x hx
    rcases (hqseen x).1 hxs with ⟨l, hl, rfl⟩ | hfixed
    · rw [hlearnt] at hl
      rcases List.mem_cons.1 hl with rfl | hl
      · rfl
      · have := (hothers l hl).2.2
        have := hlearns.level_lt
        omega
    · obtain ⟨m, hm, hzero⟩ := hlearns.fixed x hfixed
      rw [Trail.levelOf_eq hm] at hxl
      have := hlearns.level_lt
      omega
  exact hne ((honly v (Or.inl rfl)).trans (honly w (Or.inr rfl)).symm)

/-! ## Antecedents -/

theorem stored_of_steps (hk : k.Clash conflict) (hclear : analyzer.Clear)
    (h : of k.trail k.store analyzer conflict = .ok (a, analyzer')) :
    ∀ x ∈ a.steps, ∃ e, k.store.get? x.2 = some e := by
  obtain ⟨-, -, p, hp, hsteps, -⟩ :=
    of_eq_ok (P := fun p => ∀ x ∈ p.steps, ∃ e, k.store.get? x.2 = some e) hk hclear
      (fun p _ _ _ _ _ _ hnil => by simp [hnil])
      (fun p p' l ref e why hp hr => by
        rw [hr.steps]
        intro x hx
        rcases List.mem_append.1 hx with hx | hx
        · exact hp x hx
        · obtain rfl := List.mem_singleton.1 hx
          exact ⟨e, hr.stored⟩) h
  exact hsteps ▸ hp

/-- The violated constraint and the reasons are stored. -/
theorem stored_of_antecedents (hk : k.Clash conflict) (hclear : analyzer.Clear)
    (h : of k.trail k.store analyzer conflict = .ok (a, analyzer')) :
    ∀ ref ∈ a.antecedents, ∃ e, k.store.get? ref = some e := by
  obtain ⟨e, he, -⟩ := hk.violated
  rw [antecedents_of h]
  refine List.forall_mem_cons.2 ⟨⟨e, he⟩, fun ref href => ?_⟩
  obtain ⟨x, hx, rfl⟩ := List.mem_map.1 href
  exact stored_of_steps hk hclear h x hx

end Analysis
end Cdcl
