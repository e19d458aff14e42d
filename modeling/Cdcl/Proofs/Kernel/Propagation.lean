import Cdcl.Proofs.Kernel.Invariant

/-!
# Propagation

A visit lets one constraint react to a false literal. `Turn` says what this does apart from the watch
lists: the constraint takes another form, and the literals that are new on the trail were forced by
it. Propagation from a kernel that is `Ready` ends in one that is ready and has nothing left to
propagate, or in a `Clash` (`propagate_eq_ok`).
-/

namespace Cdcl
set_option autoImplicit false

/-! ## Counting false literals -/

namespace Constraint

variable {t t' : Trail} {c c' : Constraint} {l u fals : Literal} {ls : List Literal}

/-- If a watched literal and all that are not watched are false, then the others have to hold. -/
theorem Valid.length_le_of_false {q : Literal → Bool} (hc : c.Valid)
    (hrest : ∀ k ∈ c.resting, q k = true) (hl : l ∈ c.watching) (hq : q l = true) :
    c.literals.length ≤ c.degree + c.literals.countP q := by
  have hpos : 0 < c.watching.countP q := List.countP_pos_iff.2 ⟨l, hl, hq⟩
  have hlen := hc.length_resting
  rw [literals_eq c, List.countP_append, ← literals_eq, List.countP_eq_length.2 hrest]
  omega

/-- If another watched literal is false as well, then the constraint cannot hold. -/
theorem Valid.length_lt_of_false {q : Literal → Bool} (hc : c.Valid)
    (hrest : ∀ k ∈ c.resting, q k = true) (hl : l ∈ c.watching) (hq : q l = true)
    (hu : u ∈ c.watching) (hne : u ≠ l) (hqu : q u = true) :
    c.literals.length < c.degree + c.literals.countP q := by
  have hperm : c.watching.Perm (l :: c.watching.erase l) := List.perm_cons_erase hl
  have hpos : 0 < (c.watching.erase l).countP q :=
    List.countP_pos_iff.2 ⟨u, (List.mem_erase_of_ne hne).2 hu, hqu⟩
  have hlen := hc.length_resting
  rw [literals_eq c, List.countP_append, ← literals_eq, List.countP_eq_length.2 hrest,
    hperm.countP_eq, List.countP_cons, if_pos hq]
  omega

/-- A constraint goes on watching every literal but the false one. -/
theorem Reacts.mem_watching {r : Reaction} (h : Reacts t c fals c' r) (hu : u ∈ c.watching)
    (hne : u ≠ fals) : u ∈ c'.watching := by
  cases r with
  | keep => exact h.1.mem_iff.2 hu
  | move m =>
    exact h.1.mem_iff.2 (List.mem_cons_of_mem _ ((List.mem_erase_of_ne hne).2 hu))
  | force ls => exact h.1.mem_iff.2 hu
  | conflict => exact h.1.mem_iff.2 hu

/-- The constraint forces the literals that join the trail because of it. -/
theorem Reacts.forces (h : Reacts t c fals c' (.force ls)) (hc : c.Valid) (ht : t.Valid)
    (hkey : c'.key = c.key) (hext : t.Extends t') (hfals : t.holds (-fals) = true)
    (hin : fals ∈ c.watching) (hl : l ∈ ls) (hnew : t.literals.size ≤ t'.place l.var) :
    Forces t' c' l := by
  obtain ⟨hperm, hls, hrest⟩ := h
  have hbefore : ∀ k, t.holds (-k) = true → t'.falseBefore (t'.place l.var) k = true := by
    intro k hk
    obtain ⟨m, hm⟩ := Trail.exists_mark_neg hk
    have hlt := ht.position_lt hm
    refine Bool.and_eq_true_iff.2 ⟨hext.holds hk, ?_⟩
    rw [Trail.place_eq (hext.marks hm), decide_eq_true_eq]
    omega
  refine ⟨hperm.mem_iff.2 ((hls l).1 hl).1, ?_⟩
  rw [(perm_of_key_eq hkey).length_eq, degree_of_key_eq hkey, (perm_of_key_eq hkey).countP_eq]
  exact hc.length_le_of_false (fun k hk => hbefore k (hrest k hk)) hin (hbefore fals hfals)

end Constraint

namespace Kernel

variable {k k' : Kernel} {fals l : Literal} {ref : ClauseRef} {refs owed : List ClauseRef}
  {e : Stored} {c' : Constraint} {t t' : Trail} {ls : List Literal} {b : Bool}

/-! ## Forcing literals -/

/-- Forcing literals adds those that are new to the trail, until one is false. -/
theorem forceAll_eq_ok (ht : t.Valid) (hls : ∀ l ∈ ls, t.Names l)
    (h : forceAll ref ls t = .ok (b, t')) :
    t'.Valid ∧ t.Extends t' ∧ t'.head = t.head ∧
      (∀ v m, t.mark? v = none → t'.mark? v = some m →
        m.reason = some ref ∧ (⟨v, m.negative⟩ : Literal) ∈ ls) ∧
      if b then ∀ l ∈ ls, t'.holds l = true else ∃ l ∈ ls, t'.holds (-l) = true := by
  induction ls generalizing t with
  | nil =>
    obtain ⟨rfl, rfl⟩ := Prod.mk.inj (Except.ok.inj h)
    exact ⟨ht, .refl t, rfl, fun v m hnone hm => by simp [hnone] at hm, by simp⟩
  | cons l ls ih =>
    obtain ⟨hnames, hnames'⟩ := List.forall_mem_cons.1 hls
    obtain ⟨o, ho, h⟩ := bind_eq_ok_iff.1 h
    obtain ⟨rfl, hfalse⟩ | ⟨rfl, htrue⟩ | ⟨rfl, hnone, hcell⟩ := Trail.assign_eq_ok ho
    · obtain ⟨rfl, rfl⟩ := Prod.mk.inj (Except.ok.inj h)
      refine ⟨ht, .refl t, rfl, fun v m hnone hm => by simp [hnone] at hm, ?_⟩
      exact ⟨l, List.mem_cons_self, hfalse⟩
    · obtain ⟨hvalid, hext, hhead, hfresh, hb⟩ := ih ht hnames' h
      refine ⟨hvalid, hext, hhead, fun v m hnone hm => ?_, ?_⟩
      · obtain ⟨hr, hin⟩ := hfresh v m hnone hm
        exact ⟨hr, List.mem_cons_of_mem l hin⟩
      · cases b with
        | true => exact List.forall_mem_cons.2 ⟨hext.holds htrue, hb⟩
        | false => exact hb.imp fun u hu => ⟨List.mem_cons_of_mem l hu.1, hu.2⟩
    · have hpush : t.Extends (t.push l (some ref)) := .push hcell hnone rfl
      obtain ⟨hvalid, hext, hhead, hfresh, hb⟩ := ih (ht.push hnames hnone)
        (fun u hu => hpush.names.2 (hnames' u hu)) h
      have hl : (t.push l (some ref)).holds l = true :=
        (Trail.holds_push hcell).2 (Or.inl rfl)
      refine ⟨hvalid, hpush.trans hext, hhead, fun v m hnone' hm => ?_, ?_⟩
      · rcases hext.old_or_fresh hm with hold | ⟨hfree, -⟩
        · rcases Trail.mark?_push hcell hnone hold with ⟨rfl, rfl⟩ | ⟨-, hold⟩
          · exact ⟨rfl, List.mem_cons_self⟩
          · simp [hnone'] at hold
        · obtain ⟨hr, hin⟩ := hfresh v m hfree hm
          exact ⟨hr, List.mem_cons_of_mem l hin⟩
      · cases b with
        | true => exact List.forall_mem_cons.2 ⟨hext.holds hl, hb⟩
        | false => exact hb.imp fun u hu => ⟨List.mem_cons_of_mem l hu.1, hu.2⟩

/-! ## One turn -/

/-- What a visit does apart from the watch lists. -/
structure Turn (k : Kernel) (fals : Literal) (ref : ClauseRef) (e : Stored) (c' : Constraint)
    (t' : Trail) : Prop where
  stored : k.store.get? ref = some e
  valid : c'.Valid
  key : c'.key = e.constraint.key
  kept : ∀ u ∈ e.constraint.watching, u ≠ fals → u ∈ c'.watching
  extended : k.trail.Extends t'
  trail : t'.Valid
  head : t'.head = k.trail.head
  fresh : ∀ v m, k.trail.mark? v = none → t'.mark? v = some m →
    m.reason = some ref ∧ c'.Forces t' ⟨v, m.negative⟩

/-- The kernel after a turn. -/
def turned (k : Kernel) (ref : ClauseRef) (e : Stored) (c' : Constraint) (t' : Trail)
    (w : Watches) : Kernel :=
  { k with trail := t', watches := w, store := k.store.put ref { e with constraint := c' } }

/-- The false literal of a visit: it was propagated last. -/
def Current (t : Trail) (fals : Literal) : Prop :=
  ∃ m, t.mark? fals.var = some m ∧ m.negative ≠ fals.negative ∧ m.level = t.level ∧
    m.position < t.head

namespace Turn

variable {w : Watches} {n : Nat}

theorem get?_store (h : Turn k fals ref e c' t') {r : ClauseRef} :
    (k.turned ref e c' t' w).store.get? r =
      if r = ref then some { e with constraint := c' } else k.store.get? r :=
  Store.get?_put h.stored

theorem get?_self (h : Turn k fals ref e c' t') :
    (k.turned ref e c' t' w).store.get? ref = some { e with constraint := c' } := by
  rw [h.get?_store, if_pos rfl]

theorem alike (h : Turn k fals ref e c' t') : k.store.Alike (k.turned ref e c' t' w).store :=
  Store.Alike.put h.stored (by simp [Stored.face, h.key])

theorem old (h : Turn k fals ref e c' t') (hk : k.Sound) {v : Var} {m : Mark}
    (hm : t'.mark? v = some m) (hpos : m.position < t'.head) : k.trail.mark? v = some m := by
  rcases h.extended.old_or_fresh hm with hold | ⟨-, -, -, hge⟩
  · exact hold
  · have := hk.trail.head_le
    rw [h.head] at hpos
    omega

theorem sound (h : Turn k fals ref e c' t') (hk : k.Sound)
    (hfals : k.trail.holds (-fals) = true) : (k.turned ref e c' t' w).Sound where
  trail := h.trail
  caught := by
    intro n hn
    change n ∈ t'.limits.toList at hn
    rw [h.extended.limits] at hn
    change n ≤ t'.head
    rw [h.head]
    exact hk.caught n hn
  shape := by
    intro r e' he'
    rw [h.get?_store] at he'
    split at he'
    · obtain rfl := Option.some.inj he'
      exact h.valid
    · exact hk.shape he'
  named := by
    intro r e' he' l hl
    rw [h.get?_store] at he'
    refine h.extended.names.2 ?_
    split at he'
    · obtain rfl := Option.some.inj he'
      exact hk.named h.stored l ((Constraint.perm_of_key_eq h.key).mem_iff.1 hl)
    · exact hk.named he' l hl
  reasons := by
    intro v m r hm hr
    change t'.mark? v = some m at hm
    rw [h.get?_store]
    rcases h.extended.old_or_fresh hm with hold | ⟨hnone, -⟩
    · obtain ⟨e', he', hforces⟩ := hk.reasons hold hr
      have hforces' := hforces.of_extends (l := ⟨v, m.negative⟩) hold h.extended
      by_cases hrr : r = ref
      · subst hrr
        obtain rfl : e' = e := Option.some.inj (he'.symm.trans h.stored)
        rw [if_pos rfl]
        refine ⟨_, rfl, hforces'.of_key h.key (h.kept _ hforces.watched ?_)⟩
        rintro rfl
        rw [hk.trail.consistent (Trail.holds_mk hold)] at hfals
        exact absurd hfals (by simp)
      · rw [if_neg hrr]
        exact ⟨e', he', hforces'⟩
    · obtain ⟨hreason, hforces⟩ := h.fresh v m hnone hm
      obtain rfl : ref = r := Option.some.inj (hreason.symm.trans hr)
      rw [if_pos rfl]
      exact ⟨_, rfl, hforces⟩

/-- Among the literals that the constraint watched, only `fals` was propagated and is false. -/
theorem quiet (h : Turn k fals ref e c' t') (hk : k.Sound)
    (hs : k.Settled (k.trail.level + 1) fals owed) (hfals : k.trail.holds (-fals) = true)
    (hin : fals ∈ e.constraint.watching) {u : Literal} (hu : u ∈ e.constraint.watching)
    (hne : u ≠ fals) {m : Mark} (hm : t'.mark? u.var = some m) (hneg : m.negative ≠ u.negative)
    (hpos : m.position < t'.head) : False := by
  have hold := h.old hk hm hpos
  have hlev := hk.trail.level_le hold
  have htrue := (hs ref e h.stored u hu m hold hneg ⟨h.head ▸ hpos, by omega⟩
    (fun hw => hne hw.1) fals hin hne.symm).1
  rw [hk.trail.consistent htrue] at hfals
  exact absurd hfals (by simp)

/-- A turn leaves the other constraints settled, and it settles its own constraint if this has no
other false literal that was propagated. -/
theorem settled (h : Turn k fals ref e c' t') (hk : k.Sound)
    (hs : k.Settled (k.trail.level + 1) fals (ref :: owed)) (hn : n ≤ k.trail.level + 1)
    (hown : ∀ w ∈ c'.watching, ∀ m, t'.mark? w.var = some m → m.negative ≠ w.negative →
      Passed t' n m → ∀ u ∈ c'.watching, u ≠ w →
        t'.holds u = true ∧ t'.levelOf u.var ≤ m.level) :
    (k.turned ref e c' t' w).Settled n fals owed := by
  intro r e' he' w hw m hm hneg hpassed hexempt u hu hne
  rw [h.get?_store] at he'
  change t'.mark? w.var = some m at hm
  change t'.holds u = true ∧ t'.levelOf u.var ≤ m.level
  split at he'
  · obtain rfl := Option.some.inj he'
    exact hown w hw m hm hneg hpassed u hu hne
  · next hr =>
    have hold := h.old hk hm hpassed.1
    have hpassed' : Passed k.trail (k.trail.level + 1) m :=
      ⟨h.head ▸ hpassed.1, Nat.lt_of_lt_of_le hpassed.2 hn⟩
    obtain ⟨htrue, hlev⟩ := hs r e' he' w hw m hold hneg hpassed'
      (fun hx => hexempt ⟨hx.1, (List.mem_cons.1 hx.2).resolve_left hr⟩) u hu hne
    exact ⟨h.extended.holds htrue, (h.extended.levelOf htrue).symm ▸ hlev⟩

end Turn

theorem Current.holds (h : Current t fals) : t.holds (-fals) = true := by
  obtain ⟨m, hm, hneg, -⟩ := h
  exact Trail.holds_neg_of_mark hm hneg

theorem Current.of_extends (h : Current t fals) (hext : t.Extends t') (hhead : t'.head = t.head) :
    Current t' fals := by
  obtain ⟨m, hm, hneg, hlev, hpos⟩ := h
  exact ⟨m, hext.marks hm, hneg, hlev.trans hext.level.symm, hhead ▸ hpos⟩

/-! ## Visits -/

/-- The false literal `fals` is being propagated, and the constraints `owed` are to be visited. -/
structure Visiting (k : Kernel) (fals : Literal) (owed : List ClauseRef) : Prop where
  sound : k.Sound
  owing : k.Owing fals owed
  settled : k.Settled (k.trail.level + 1) fals owed
  current : Current k.trail fals

/-- A constraint turned out to be violated, and the constraints `owed` were not visited. -/
structure Broken (k : Kernel) (fals : Literal) (owed : List ClauseRef) (ref : ClauseRef) :
    Prop where
  sound : k.Sound
  owing : k.Owing fals owed
  settled : k.Settled k.trail.level fals owed
  current : Current k.trail fals
  violated : ∃ e, k.store.get? ref = some e ∧ e.constraint.Violated k.trail ∧
    fals ∈ e.constraint.literals

section
variable {w : Watches}

/-- The entry that a visit owes is paid by putting the constraint on the list of the false literal
or of the one that it watches instead. -/
theorem Turn.owing (h : Turn k fals ref e c' t') (ho : k.Owing fals (ref :: refs))
    (hadd : k.watches.add l ref = .ok w)
    (hperm : (fals :: c'.watching).Perm (l :: e.constraint.watching)) :
    (k.turned ref e c' t' w).Owing fals refs := by
  intro r u
  have hold := ho r u
  have htally := Watches.tally_add (k := u) (r := r) hadd
  have hcount := hperm.count_eq u
  change w.tally u r + _ = ((k.turned ref e c' t' w).store.watching r).count u
  rw [Store.watching, h.get?_store]
  by_cases hr : r = ref
  · subst hr
    rw [Store.watching_eq h.stored] at hold
    simp only [List.count_cons, beq_iff_eq, beq_self_eq_true, if_true, and_true,
      eq_comm (b := u)] at hold htally hcount ⊢
    split at hold
    · simp_all
      omega
    · simp_all
  · simp only [List.count_cons, beq_iff_eq, Ne.symm hr, if_false, hr, and_false] at hold htally ⊢
    rw [htally]
    exact hold

/-- If no literal that the constraint watches now is false and propagated, apart from those that it
watched before, then the constraint is settled. -/
theorem Turn.settled_of_quiet (h : Turn k fals ref e c' t') (hv : k.Visiting fals (ref :: refs))
    (hin : fals ∈ e.constraint.watching) {n : Nat} (hn : n ≤ k.trail.level + 1)
    (hquiet : ∀ u ∈ c'.watching, ∀ m, t'.mark? u.var = some m → m.negative ≠ u.negative →
      Passed t' n m → u ∈ e.constraint.watching ∧ u ≠ fals) :
    (k.turned ref e c' t' w).Settled n fals refs := by
  refine h.settled hv.sound hv.settled hn fun u hu m hm hneg hp => ?_
  obtain ⟨hold, hne⟩ := hquiet u hu m hm hneg hp
  exact (h.quiet hv.sound hv.settled hv.current.holds hin hold hne hm hneg hp.1).elim

/-- If all that the constraint watches hold but the false literal, then it is settled. -/
theorem Turn.settled_of_true (h : Turn k fals ref e c' t') (hv : k.Visiting fals (ref :: refs))
    (hin : fals ∈ e.constraint.watching) (hperm : c'.watching.Perm e.constraint.watching)
    (htrue : ∀ u ∈ e.constraint.watching, u ≠ fals → t'.holds u = true) :
    (k.turned ref e c' t' w).Settled (k.trail.level + 1) fals refs := by
  refine h.settled hv.sound hv.settled (Nat.le_refl _) fun x hx m hm hneg hp u hu hne => ?_
  by_cases hxf : x = fals
  · subst hxf
    have hholds := htrue u (hperm.mem_iff.1 hu) hne
    obtain ⟨m', hm', -, hlev, -⟩ := hv.current.of_extends h.extended h.head
    obtain rfl : m' = m := Option.some.inj (hm'.symm.trans hm)
    obtain ⟨n, hn⟩ := Trail.exists_mark hholds
    rw [Trail.levelOf_eq hn, hlev]
    exact ⟨hholds, h.trail.level_le hn⟩
  · exact (h.quiet hv.sound hv.settled hv.current.holds hin (hperm.mem_iff.1 hx) hxf hm hneg
      hp.1).elim

/-- At a violated constraint everything below the current level is settled. -/
theorem Turn.settled_below (h : Turn k fals ref e c' t') (hv : k.Visiting fals (ref :: refs))
    (hin : fals ∈ e.constraint.watching) (hperm : c'.watching.Perm e.constraint.watching) :
    (k.turned ref e c' t' w).Settled t'.level fals refs := by
  refine h.settled_of_quiet hv hin (by rw [h.extended.level]; omega) fun x hx m hm _ hp => ?_
  refine ⟨hperm.mem_iff.1 hx, ?_⟩
  rintro rfl
  obtain ⟨m', hm', -, hlev, -⟩ := hv.current.of_extends h.extended h.head
  obtain rfl : m' = m := Option.some.inj (hm'.symm.trans hm)
  have := hp.2
  omega

end

/-- A visit keeps what holds during propagation, unless it finds the constraint violated. -/
theorem visit_eq_ok (h : k.Visiting fals (ref :: refs)) (hv : k.visit ref fals = .ok (b, k')) :
    k.trail.Extends k'.trail ∧ k.store.Alike k'.store ∧ k'.trail.head = k.trail.head ∧
      if b then k'.Visiting fals refs else k'.Broken fals refs ref := by
  obtain ⟨e, he, hv⟩ := bind_eq_ok_iff.1 hv
  obtain ⟨⟨c', r⟩, hreact, hv⟩ := bind_eq_ok_iff.1 hv
  rw [Store.get_eq_ok] at he
  have hc := h.sound.shape he
  obtain ⟨hin, hc', hkey, hr⟩ := Constraint.react_eq_ok hc hreact
  have hfals := h.current.holds
  have hkept := fun u => hr.mem_watching (u := u)
  have hin' : fals ∈ c'.literals :=
    (Constraint.perm_of_key_eq hkey).mem_iff.2 (Constraint.mem_literals.2 (Or.inl hin))
  -- the trail stays as it is, unless literals are forced
  have hturn : Turn k fals ref e c' k.trail :=
    ⟨he, hc', hkey, hkept, .refl _, h.sound.trail, rfl, fun v m hnone hm => by simp [hnone] at hm⟩
  cases r with
  | keep =>
    obtain ⟨w, hw, hv⟩ := bind_eq_ok_iff.1 hv
    obtain ⟨rfl, rfl⟩ := Prod.mk.inj (Except.ok.inj hv)
    obtain ⟨hperm, htrue⟩ := hr
    exact ⟨.refl _, hturn.alike, rfl, hturn.sound h.sound hfals,
      hturn.owing h.owing hw (hperm.cons fals), hturn.settled_of_true h hin hperm htrue, h.current⟩
  | move l =>
    obtain ⟨w, hw, hv⟩ := bind_eq_ok_iff.1 hv
    obtain ⟨rfl, rfl⟩ := Prod.mk.inj (Except.ok.inj hv)
    obtain ⟨hperm, hrest, hopen⟩ := hr
    have hswap : (fals :: c'.watching).Perm (l :: e.constraint.watching) :=
      (hperm.cons fals).trans ((List.Perm.swap l fals _).trans
        ((List.perm_cons_erase hin).symm.cons l))
    refine ⟨.refl _, hturn.alike, rfl, hturn.sound h.sound hfals, hturn.owing h.owing hw hswap,
      hturn.settled_of_quiet h hin (Nat.le_refl _) fun x hx m hm hneg hp => ?_, h.current⟩
    rcases List.mem_cons.1 (hperm.mem_iff.1 hx) with rfl | hx
    · rw [Trail.holds_neg_of_mark hm hneg] at hopen
      exact absurd hopen (by simp)
    · exact ((hc.nodup_watching.mem_erase_iff).1 hx).symm
  | force ls =>
    obtain ⟨w, hw, hv⟩ := bind_eq_ok_iff.1 hv
    obtain ⟨⟨b', t'⟩, hforce, hv⟩ := bind_eq_ok_iff.1 hv
    obtain ⟨rfl, rfl⟩ := Prod.mk.inj (Except.ok.inj hv)
    obtain ⟨hperm, hls, hrest⟩ := hr
    have hnames : ∀ u ∈ ls, k.trail.Names u := fun u hu =>
      h.sound.named he u (Constraint.mem_literals.2 (Or.inl ((hls u).1 hu).1))
    obtain ⟨hvalid, hext, hhead, hfresh, hb⟩ := forceAll_eq_ok h.sound.trail hnames hforce
    have hturn' : Turn k fals ref e c' t' := by
      refine ⟨he, hc', hkey, hkept, hext, hvalid, hhead, fun v m hnone hm => ?_⟩
      obtain ⟨hreason, hv⟩ := hfresh v m hnone hm
      refine ⟨hreason, Constraint.Reacts.forces ⟨hperm, hls, hrest⟩ hc h.sound.trail hkey hext hfals
        hin hv ?_⟩
      rw [Trail.place_eq hm]
      exact (hext.fresh hnone hm).2.2
    have howing := hturn'.owing h.owing hw (hperm.cons fals)
    have hcurrent := h.current.of_extends hext hhead
    refine ⟨hext, hturn'.alike, hhead, ?_⟩
    cases b' with
    | true =>
      refine ⟨hturn'.sound h.sound hfals, howing, ?_, hcurrent⟩
      change Settled _ (t'.level + 1) _ _
      rw [hext.level]
      exact hturn'.settled_of_true h hin hperm fun u hu hne => hb u ((hls u).2 ⟨hu, hne⟩)
    | false =>
      refine ⟨hturn'.sound h.sound hfals, howing, hturn'.settled_below h hin hperm, hcurrent, _,
        hturn'.get?_self (w := w), ?_, hin'⟩
      obtain ⟨u, hu, hufals⟩ := hb
      obtain ⟨huw, hune⟩ := (hls u).1 hu
      have hviolated : e.constraint.Violated t' := hc.length_lt_of_false
        (fun x hx => hext.holds (hrest x hx)) hin (hext.holds hfals) huw hune hufals
      exact hviolated.of_key hkey
  | conflict =>
    obtain ⟨w, hw, hv⟩ := bind_eq_ok_iff.1 hv
    obtain ⟨rfl, rfl⟩ := Prod.mk.inj (Except.ok.inj hv)
    obtain ⟨hperm, ⟨u, huw, hune, hufals⟩, hrest⟩ := hr
    have hviolated : e.constraint.Violated k.trail :=
      hc.length_lt_of_false hrest hin hfals huw hune hufals
    exact ⟨.refl _, hturn.alike, rfl, hturn.sound h.sound hfals,
      hturn.owing h.owing hw (hperm.cons fals), hturn.settled_below h hin hperm, h.current, _,
      hturn.get?_self (w := w), hviolated.of_key hkey, hin'⟩

/-! ## Whole lists and queues -/

/-- The constraints after a violated one get their places back, and nothing waits any more. -/
theorem Broken.clash (h : k.Broken fals refs ref) {w : Watches}
    (hw : k.watches.restore fals refs = .ok w) :
    Clash { k with watches := w, trail := k.trail.flush } ref := by
  obtain ⟨m, hm, hneg, hlev, hpos⟩ := h.current
  obtain ⟨e, he, hviolated, hin⟩ := h.violated
  refine ⟨⟨?sound, ?indexed, ?stable⟩, rfl, ?violated⟩
  case sound => exact h.sound.withHead (Nat.le_refl _) h.sound.trail.limited
  case indexed =>
    intro r l
    rw [Watches.tally_restore hw]
    exact h.owing r l
  case stable =>
    intro r e' he' u hu n hn hneg' hp
    -- what was not propagated belongs to the current level
    have hlt : n.position < k.trail.head := by
      by_contra hge
      have hlev' := h.sound.level_eq hn (Nat.le_of_not_lt hge)
      have hlt : n.level < k.trail.level := hp.2
      omega
    refine h.settled r e' he' u hu n hn hneg' ⟨hlt, hp.2⟩ ?_
    rintro ⟨rfl, -⟩
    obtain rfl : m = n := Option.some.inj (hm.symm.trans hn)
    have hlt : m.level < k.trail.level := hp.2
    omega
  case violated =>
    refine ⟨e, he, hviolated, fals, hin, Trail.holds_neg_of_mark hm hneg, ?_⟩
    change k.trail.levelOf fals.var = k.trail.level
    rw [Trail.levelOf_eq hm, hlev]

/-- Visiting a list of constraints either settles them all or ends at a violated one. -/
theorem visitAll_eq_ok {o : Option ClauseRef} (h : k.Visiting fals refs)
    (hv : visitAll fals refs k = .ok (o, k')) :
    k.trail.Extends k'.trail ∧ k.store.Alike k'.store ∧
      match o with
      | none => k'.Visiting fals [] ∧ k'.trail.head = k.trail.head
      | some ref => k'.Clash ref := by
  induction refs generalizing k with
  | nil =>
    obtain ⟨rfl, rfl⟩ := Prod.mk.inj (Except.ok.inj hv)
    exact ⟨.refl _, .refl _, h, rfl⟩
  | cons ref refs ih =>
    obtain ⟨⟨b, k₁⟩, hk₁, hv⟩ := bind_eq_ok_iff.1 hv
    obtain ⟨hext, halike, hhead, hb⟩ := visit_eq_ok h hk₁
    cases b with
    | true =>
      obtain ⟨hext', halike', ho⟩ := ih hb hv
      refine ⟨hext.trans hext', halike.trans halike', ?_⟩
      cases o with
      | none => exact ⟨ho.1, ho.2.trans hhead⟩
      | some _ => exact ho
    | false =>
      obtain ⟨w, hw, hv⟩ := bind_eq_ok_iff.1 hv
      obtain ⟨rfl, rfl⟩ := Prod.mk.inj (Except.ok.inj hv)
      exact ⟨⟨hext.vars, hext.limits, hext.cells, hext.size, hext.holds, hext.marks, hext.fresh⟩, halike,
        Broken.clash hb hw⟩

/-- Taking the list of the negation of a literal that is next in the queue. -/
theorem Ready.visiting (h : k.Ready) {w : Watches} {list : Array ClauseRef} {n : Nat}
    (hl : k.trail.literals[k.trail.head]? = some l) (hw : k.watches.take (-l) = .ok (list, w)) :
    Visiting { k with trail.head := k.trail.head + 1, watches := w, propagations := n } (-l)
      list.toList := by
  obtain ⟨m, hm, hneg, hpos⟩ := h.sound.trail.marked hl
  have hlt : k.trail.head < k.trail.literals.size := (Array.getElem?_eq_some_iff.1 hl).1
  have hlist := fun l' r => Watches.take_eq_ok (k := l') (r := r) hw
  have htally : ∀ r, list.toList.count r = k.watches.tally (-l) r := by
    intro r
    rw [(hlist l r).1]
    rfl
  constructor
  case sound =>
    exact h.sound.withHead hlt fun n hn => Nat.le_succ_of_le (h.sound.caught n hn)
  case owing =>
    intro r u
    rw [(hlist u r).2]
    change _ = (k.store.watching r).count u
    rw [← h.indexed r u]
    by_cases hu : u = -l
    · simp [hu, htally]
    · simp [hu]
  case settled =>
    intro r e he u hu n hn hneg' hp hexempt
    refine h.stable r e he u hu n hn hneg' ⟨?_, hp.2⟩
    refine Nat.lt_of_le_of_ne (Nat.le_of_lt_succ hp.1) fun hpos' => hexempt ?_
    -- the literal at the head is the negation of the watched one
    have hv : u.var = l.var := h.sound.trail.mark_ext hn hm (hpos'.trans hpos.symm)
    rw [hv] at hn
    obtain rfl : m = n := Option.some.inj (hm.symm.trans hn)
    have hul : u = -l := by
      obtain ⟨uv, un⟩ := u
      obtain ⟨lv, ln⟩ := l
      obtain rfl : uv = lv := hv
      have : un = !ln := by cases un <;> cases ln <;> simp_all
      rw [this]
      rfl
    refine ⟨hul, List.count_pos_iff.1 ?_⟩
    rw [htally, h.indexed, Store.watching_eq he, ← hul]
    exact List.count_pos_iff.2 hu
  case current =>
    refine ⟨m, hm, ?_, ?_, ?_⟩
    · rw [hneg]
      simp
    · exact h.sound.level_eq hm (Nat.le_of_eq hpos.symm)
    · change m.position < k.trail.head + 1
      omega

theorem Visiting.ready (h : k.Visiting fals []) : k.Ready :=
  ⟨h.sound, owing_nil.1 h.owing, settled_nil.1 h.settled⟩

/-- How propagation ends: nothing is left to propagate, or a constraint is violated. -/
def EndsWith (k : Kernel) : Option ClauseRef → Prop
  | none => k.Ready ∧ k.trail.head = k.trail.literals.size
  | some ref => k.Clash ref

theorem propagateFrom_eq_ok {fuel : Nat} {o : Option ClauseRef} (h : k.Ready)
    (hfuel : k.trail.positions.cells.size ≤ fuel + k.trail.head)
    (hp : propagateFrom fuel k = .ok (o, k')) :
    k.trail.Extends k'.trail ∧ k.store.Alike k'.store ∧ k'.EndsWith o := by
  induction fuel generalizing k with
  | zero =>
    obtain ⟨rfl, rfl⟩ := Prod.mk.inj (Except.ok.inj hp)
    have h1 := h.sound.trail.size_le_cells
    have h2 := h.sound.trail.head_le
    exact ⟨.refl _, .refl _, h, by omega⟩
  | succ fuel ih =>
    rw [propagateFrom] at hp
    split at hp
    · next hnext =>
      obtain ⟨rfl, rfl⟩ := Prod.mk.inj (Except.ok.inj hp)
      exact ⟨.refl _, .refl _, h, h.sound.trail.next_eq_none hnext⟩
    · next l t hnext =>
      obtain ⟨hl, rfl⟩ := Trail.next_eq_some hnext
      obtain ⟨⟨o₁, k₁⟩, hk₁, hp⟩ := bind_eq_ok_iff.1 hp
      obtain ⟨⟨list, w⟩, hw, hk₁⟩ := bind_eq_ok_iff.1 hk₁
      obtain ⟨hext, halike, ho⟩ := visitAll_eq_ok (h.visiting hl hw) hk₁
      have hext₁ : k.trail.Extends k₁.trail :=
        ⟨hext.vars, hext.limits, hext.cells, hext.size, hext.holds, hext.marks, hext.fresh⟩
      cases o₁ with
      | some conflict =>
        obtain ⟨rfl, rfl⟩ := Prod.mk.inj (Except.ok.inj hp)
        exact ⟨hext₁, halike, ho⟩
      | none =>
        obtain ⟨hvisiting, hhead⟩ := ho
        have hfuel₁ : k₁.trail.positions.cells.size ≤ fuel + k₁.trail.head := by
          have hcells : k₁.trail.positions.cells.size = k.trail.positions.cells.size :=
            congrArg (·.2.2.2) hext₁.cells
          rw [hcells, hhead]
          change _ ≤ fuel + (k.trail.head + 1)
          omega
        obtain ⟨hext', halike', ho'⟩ := ih hvisiting.ready hfuel₁ hp
        exact ⟨hext₁.trans hext', halike.trans halike', ho'⟩

/-- Propagation ends with nothing left to propagate, or with a clash. -/
theorem propagate_eq_ok {o : Option ClauseRef} (h : k.Ready)
    (hp : k.propagate = .ok (o, k')) :
    k.trail.Extends k'.trail ∧ k.store.Alike k'.store ∧ k'.EndsWith o :=
  propagateFrom_eq_ok h (Nat.le_add_right _ _) hp

end Kernel
end Cdcl
