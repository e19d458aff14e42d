import Mathlib.Order.Bounds.Basic
import Cdcl.Proofs.Kernel.Propagation

/-!
# Unit propagation as a closure

A constraint infers each of its remaining literals once so many are false that all others have to
hold (`Constraint.Infers`). `Kernel.closure` is the least set of literals that contains the trail and is
closed under the inferences of the stored constraints; it does not mention the watch lists. What
propagation makes true lies in the closure, because its reasons force it
(`Sound.truths_subset_closure`). When nothing is left to propagate, the true literals are closed
(`Ready.closed_truths`), so propagation has reached the closure. A violated constraint puts a
literal and its negation into the closure (`Clash.exists_contradiction`).
-/

namespace Cdcl
set_option autoImplicit false

/-- If all literals of a constraint but `degree` many are false in a set of literals, then the
constraint infers the remaining ones. -/
def Constraint.Infers (c : Constraint) (S : Set Literal) (l : Literal) : Prop :=
  l ∈ c.literals ∧ ∃ fs : List Literal, fs.Nodup ∧ l ∉ fs ∧
    fs.length + c.degree = c.literals.length ∧ ∀ f ∈ fs, f ∈ c.literals ∧ -f ∈ S

/-- The true literals of a trail. -/
def Trail.truths (t : Trail) : Set Literal := { l | t.holds l = true }

/-- The set contains what the stored constraints infer from it. -/
def Store.Closed (s : Store) (S : Set Literal) : Prop :=
  ∀ ref e, s.get? ref = some e → ∀ l, e.constraint.Infers S l → l ∈ S

namespace Constraint

variable {c c' : Constraint} {S S' : Set Literal} {l : Literal} {fs : List Literal} {t : Trail}

theorem Infers.mono (h : c.Infers S l) (hS : S ⊆ S') : c.Infers S' l := by
  obtain ⟨hl, fs, hnodup, hnot, hlen, hfs⟩ := h
  exact ⟨hl, fs, hnodup, hnot, hlen, fun f hf => ⟨(hfs f hf).1, hS (hfs f hf).2⟩⟩

/-- The order of the literals does not matter. -/
theorem Infers.of_key (h : c.Infers S l) (hkey : c'.key = c.key) : c'.Infers S l := by
  have hperm := perm_of_key_eq hkey
  obtain ⟨hl, fs, hnodup, hnot, hlen, hfs⟩ := h
  refine ⟨hperm.mem_iff.2 hl, fs, hnodup, hnot, ?_, fun f hf => ⟨hperm.mem_iff.2 (hfs f hf).1,
    (hfs f hf).2⟩⟩
  rw [hperm.length_eq, degree_of_key_eq hkey]
  exact hlen

/-- More false literals than needed infer as well. -/
theorem infers_of_le (hc : c.Valid) (hl : l ∈ c.literals) (hnodup : fs.Nodup) (hnot : l ∉ fs)
    (hfs : ∀ f ∈ fs, f ∈ c.literals ∧ -f ∈ S) (hle : c.literals.length ≤ c.degree + fs.length) :
    c.Infers S l := by
  have hlen := hc.length_resting
  refine ⟨hl, fs.take (c.literals.length - c.degree), hnodup.sublist (List.take_sublist _ _),
    fun hin => hnot (List.mem_of_mem_take hin), ?_, fun f hf => hfs f (List.mem_of_mem_take hf)⟩
  rw [List.length_take]
  omega

/-- A constraint infers what it forces from what was false before. -/
theorem Forces.infers (h : c.Forces t l) (hc : c.Valid)
    (hS : ∀ f, t.holds (-f) = true → t.place f.var < t.place l.var → -f ∈ S) : c.Infers S l := by
  refine infers_of_le hc (mem_literals.2 (Or.inl h.watched))
    (hc.nodup.filter (t.falseBefore (t.place l.var))) (fun hin => ?_) (fun f hf => ?_) ?_
  · have hbefore := (List.mem_filter.1 hin).2
    simp [Trail.falseBefore] at hbefore
  · obtain ⟨hf, hbefore⟩ := List.mem_filter.1 hf
    obtain ⟨hfalse, hplace⟩ : t.holds (-f) = true ∧ t.place f.var < t.place l.var := by
      simpa [Trail.falseBefore] using hbefore
    exact ⟨hf, hS f hfalse hplace⟩
  · rw [← List.countP_eq_length_filter]
    exact h.enough

/-- A violated constraint infers one of its false literals. -/
theorem Violated.infers (h : c.Violated t) (hc : c.Valid) (hS : t.truths ⊆ S) :
    ∃ l, t.holds (-l) = true ∧ c.Infers S l := by
  have hlen := hc.length_resting
  have hviolated :
      c.literals.length < c.degree + (c.literals.filter fun l => t.holds (-l)).length := by
    rw [← List.countP_eq_length_filter]
    exact h
  obtain ⟨l, fs, hfilter⟩ : ∃ l fs, (c.literals.filter fun l => t.holds (-l)) = l :: fs :=
    List.exists_cons_of_ne_nil fun hnil => by
      rw [hnil, List.length_nil] at hviolated
      omega
  have hmem : ∀ f ∈ l :: fs, f ∈ c.literals ∧ t.holds (-f) = true := fun f hf =>
    List.mem_filter.1 (hfilter ▸ hf)
  have hnodup : (l :: fs).Nodup := hfilter ▸ hc.nodup.filter _
  rw [hfilter, List.length_cons] at hviolated
  refine ⟨l, (hmem l List.mem_cons_self).2, infers_of_le hc (hmem l List.mem_cons_self).1
    (List.nodup_cons.1 hnodup).2 (List.nodup_cons.1 hnodup).1 (fun f hf => ?_) (by omega)⟩
  exact ⟨(hmem f (List.mem_cons_of_mem l hf)).1, hS (hmem f (List.mem_cons_of_mem l hf)).2⟩

end Constraint

theorem Store.Closed.of_alike {s s' : Store} {S : Set Literal} (h : s.Closed S) (hs : s.Alike s') :
    s'.Closed S := by
  intro ref e' he' l hl
  obtain ⟨e, he, hface⟩ := hs.symm.get? he'
  exact h ref e he l (hl.of_key (congrArg Prod.fst hface))

namespace Kernel

variable {k k' : Kernel} {S : Set Literal} {l : Literal} {ref : ClauseRef} {e : Stored}

/-- The set contains the trail and what the stored constraints infer from it. -/
structure Closes (k : Kernel) (S : Set Literal) : Prop where
  trail : k.trail.truths ⊆ S
  closed : k.store.Closed S

/-- What follows from the trail by inferences of the stored constraints. -/
def closure (k : Kernel) : Set Literal := { l | ∀ S, k.Closes S → l ∈ S }

/-- The closure is the least set that contains the trail and is closed. -/
theorem isLeast_closure (k : Kernel) : IsLeast { S | k.Closes S } k.closure := by
  refine ⟨⟨fun l hl S hS => hS.trail hl, fun ref e he l hl S hS => ?_⟩, fun S hS l hl => hl S hS⟩
  exact hS.closed ref e he l (hl.mono fun m hm => hm S hS)

/-- Only the true literals and the stored constraints count. -/
theorem closes_congr (ht : k'.trail.truths = k.trail.truths) (hs : k'.store = k.store)
    (S : Set Literal) : k'.Closes S ↔ k.Closes S := by
  constructor
  · exact fun h => ⟨ht ▸ h.trail, hs ▸ h.closed⟩
  · exact fun h => ⟨ht.symm ▸ h.trail, hs.symm ▸ h.closed⟩

theorem closure_congr (ht : k'.trail.truths = k.trail.truths) (hs : k'.store = k.store) :
    k'.closure = k.closure := by
  unfold closure
  simp only [closes_congr ht hs]

/-- The literals that propagation adds to the trail belong to the closure. -/
theorem Sound.truths_subset_closure (h : k'.Sound) (hext : k.trail.Extends k'.trail)
    (hs : k.store.Alike k'.store) : k'.trail.truths ⊆ k.closure := by
  intro l hl S hS
  have hclosed := hS.closed.of_alike hs
  -- by induction on the place: a reason infers its literal from earlier ones
  suffices hall : ∀ p v m, k'.trail.mark? v = some m → m.position = p →
      (⟨v, m.negative⟩ : Literal) ∈ S by
    obtain ⟨m, hm, hneg⟩ := h.trail.holds_iff.1 hl
    have hin := hall m.position l.var m hm rfl
    rw [hneg] at hin
    exact hin
  intro p
  induction p using Nat.strongRecOn with
  | ind p ih =>
    intro v m hm hp
    rcases hext.old_or_fresh hm with hold | ⟨-, hreason, -⟩
    · exact hS.trail (Trail.holds_mk hold)
    · obtain ⟨ref, href⟩ := Option.isSome_iff_exists.1 hreason
      obtain ⟨e, he, hforces⟩ := h.reasons hm href
      refine hclosed ref e he _ (hforces.infers (h.shape he) fun f hfalse hplace => ?_)
      obtain ⟨i, hi, hneg⟩ := h.trail.holds_iff.1 hfalse
      change k'.trail.mark? f.var = some i at hi
      change _ < k'.trail.place v at hplace
      rw [Trail.place_eq hi, Trail.place_eq hm, hp] at hplace
      have hin := ih i.position hplace f.var i hi rfl
      rw [hneg] at hin
      exact hin

/-- When nothing is left to propagate, the stored constraints infer only what is true. -/
theorem Ready.closed_truths (h : k.Ready) (hhead : k.trail.head = k.trail.literals.size) :
    k.store.Closed k.trail.truths := by
  rintro ref e he l ⟨hl, fs, hnodup, hnot, hlen, hfs⟩
  have hc := h.sound.shape he
  have hresting := hc.length_resting
  -- there are too few literals at rest for all false ones
  obtain ⟨w, hwf, hw⟩ : ∃ w ∈ fs, w ∈ e.constraint.watching := by
    by_contra hno
    have hsub : fs ⊆ e.constraint.resting := fun f hf =>
      (Constraint.mem_literals.1 (hfs f hf).1).resolve_left fun hw => hno ⟨f, hf, hw⟩
    have hle := (List.subperm_of_subset hnodup hsub).length_le
    omega
  obtain ⟨m, hm, hneg⟩ := h.sound.trail.holds_neg_iff.1 (hfs w hwf).2
  have hpassed : Passed k.trail (k.trail.level + 1) m :=
    ⟨hhead ▸ h.sound.trail.position_lt hm, Nat.lt_succ_of_le (h.sound.trail.level_le hm)⟩
  have htrue : ∀ u ∈ e.constraint.watching.erase w, k.trail.holds u = true := by
    intro u hu
    obtain ⟨hne, hu⟩ := hc.nodup_watching.mem_erase_iff.1 hu
    exact (h.stable ref e he w hw m hm hneg hpassed u hu hne).1
  have hdisjoint : ∀ f ∈ fs, f ∉ e.constraint.watching.erase w := by
    intro f hf hu
    have hfalse : k.trail.holds (-f) = true := (hfs f hf).2
    rw [h.sound.trail.consistent (htrue f hu)] at hfalse
    exact absurd hfalse (by simp)
  -- the false literals and the watched ones that hold are all there are
  by_contra hopen
  have hall : (l :: (fs ++ e.constraint.watching.erase w)).Nodup := by
    refine List.nodup_cons.2 ⟨fun hin => ?_, ?_⟩
    · rcases List.mem_append.1 hin with hin | hin
      · exact hnot hin
      · exact hopen (htrue l hin)
    · exact List.nodup_append'.2 ⟨hnodup, hc.nodup_watching.erase w, hdisjoint⟩
  have hsub : l :: (fs ++ e.constraint.watching.erase w) ⊆ e.constraint.literals := by
    refine List.cons_subset.2 ⟨hl, List.append_subset.2 ⟨fun f hf => (hfs f hf).1, fun u hu => ?_⟩⟩
    exact Constraint.mem_literals.2 (Or.inl (List.mem_of_mem_erase hu))
  have hle := (List.subperm_of_subset hall hsub).length_le
  have hwatching := hc.length_watching
  rw [List.length_cons, List.length_append, List.length_erase_of_mem hw] at hle
  omega

/-- When nothing is left to propagate, no stored constraint is violated. -/
theorem Ready.not_violated (h : k.Ready) (hhead : k.trail.head = k.trail.literals.size)
    (he : k.store.get? ref = some e) : ¬ e.constraint.Violated k.trail := by
  intro hviolated
  obtain ⟨l, hfalse, hinfers⟩ := hviolated.infers (h.sound.shape he) (Set.Subset.refl _)
  have htrue := h.closed_truths hhead ref e he l hinfers
  rw [h.sound.trail.consistent htrue] at hfalse
  exact absurd hfalse (by simp)

/-- A clash puts a literal and its negation into every closed set that contains the trail. -/
theorem Clash.exists_contradiction (h : k.Clash ref) (hS : k.Closes S) : ∃ l, l ∈ S ∧ -l ∈ S := by
  obtain ⟨e, he, hviolated, -⟩ := h.violated
  obtain ⟨l, hfalse, hinfers⟩ := hviolated.infers (h.sound.shape he) hS.trail
  exact ⟨l, hS.closed ref e he l hinfers, hS.trail hfalse⟩

end Kernel
end Cdcl
