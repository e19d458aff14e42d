import Cdcl.Proofs.Certificate
import Cdcl.Proofs.Order.Covering
import Cdcl.Solver.State

/-!
# What holds of a solver

`Solver.Keeps` ties the parts of a solver to the formula given so far: the kernel represents it, the
tables fit the store, the order offers every unassigned variable, and the certificate backs what is
stored. `Solver.Sane` adds what holds between two steps of a search and `Solver.Idle` what holds
between two calls. `Solver.Refuted` is the state that is left once the formula is known to be
unsatisfiable.
-/

namespace Cdcl
set_option autoImplicit false

/-- The listed clauses are stored as learnt ones, each once. -/
structure Store.Lists (s : Store) (refs : List ClauseRef) : Prop where
  nodup : refs.Nodup
  stored : ∀ ref ∈ refs, ∃ e, s.get? ref = some e ∧ e.learnt = true

namespace Solver

/-- The parts of a solver fit the formula. -/
structure Keeps (s : Solver) (F : Formula) : Prop where
  represents : s.kernel.Represents F
  known : ∀ key ref, s.known[key]? = some ref →
    ∃ e, s.store.get? ref = some e ∧ e.learnt = false ∧ e.constraint.key = key
  originals : s.formulaSize = (s.store.refs false).length
  clear : s.analyzer.Clear
  covers : s.order.Covers s.trail
  certified : ∀ c, s.certificate = some c → c.empty = none ∧ c.Certifies s.trail s.store
  calm : Notice.rootConflict ∉ s.journal
  undecided : s.refuted = false

/-- What holds between two steps of a search. -/
structure Sane (s : Solver) (F : Formula) : Prop where
  ready : s.kernel.Ready
  keeps : s.Keeps F
  lists : s.store.Lists s.learnts

/-- What holds between two calls, as long as no contradiction was found. -/
structure Idle (s : Solver) (F : Formula) : Prop extends Sane s F where
  level : s.trail.level = 0

/-- The formula is known to be unsatisfiable, and the certificate shows it. -/
structure Refuted (s : Solver) (F : Formula) : Prop where
  refuted : s.refuted = true
  unsatisfiable : ¬ F.Satisfiable
  certified : ∀ c, s.certificate = some c → ∃ id, c.empty = some id ∧ c.log.Refutes id

/-- A clause that nothing uses yet is on offer in the certificate, if one is kept. -/
def Offers (s : Solver) (id : Option ClauseId) (ls : List Literal) : Prop :=
  ∀ c, s.certificate = some c → c.empty = none ∧
    ∃ i, id = some i ∧ c.Offers s.trail s.store i ls

variable {s s' : Solver} {F : Formula} {k : Kernel} {o : Order} {n : Notice} {ns : List Notice}
  {ref : ClauseRef} {e : Stored}

/-! ## Equivalent formulas -/

theorem Keeps.congr {F' : Formula} (h : s.Keeps F) (hF : ∀ a : Assignment, F'.Holds a ↔ F.Holds a) :
    s.Keeps F' :=
  { h with represents := h.represents.congr hF }

theorem Idle.congr {F' : Formula} (h : s.Idle F) (hF : ∀ a : Assignment, F'.Holds a ↔ F.Holds a) :
    s.Idle F' :=
  ⟨⟨h.ready, h.keeps.congr hF, h.lists⟩, h.level⟩

/-! ## Learnt clauses -/

theorem lists_nil (s : Store) : s.Lists [] := ⟨List.nodup_nil, by simp⟩

theorem lists_of_alike {s s' : Store} {refs : List ClauseRef} (h : s.Lists refs)
    (hs : s.Alike s') : s'.Lists refs := by
  refine ⟨h.nodup, fun ref href => ?_⟩
  obtain ⟨e, he, hlearnt⟩ := h.stored ref href
  obtain ⟨e', he', hface⟩ := hs.get? he
  exact ⟨e', he', (congrArg (fun f => f.2.1) hface).trans hlearnt⟩

theorem lists_insert {s : Store} {refs : List ClauseRef} (h : s.Lists refs) :
    (s.insert e).2.Lists refs := by
  refine ⟨h.nodup, fun ref href => ?_⟩
  obtain ⟨e', he', hlearnt⟩ := h.stored ref href
  exact ⟨e', Store.get?_insert_of_some he', hlearnt⟩

theorem lists_insert_learnt {s : Store} {refs : List ClauseRef} (h : s.Lists refs)
    (he : e.learnt = true) : (s.insert e).2.Lists (refs ++ [(s.insert e).1]) := by
  have hnew : (s.insert e).1 ∉ refs := by
    intro hin
    obtain ⟨e', he', -⟩ := h.stored _ hin
    rw [show (s.insert e).1 = ⟨s.slots.size⟩ from rfl, Store.get?_size] at he'
    exact absurd he' (by simp)
  refine ⟨(List.perm_append_singleton _ refs).nodup_iff.2 (List.nodup_cons.2 ⟨hnew, h.nodup⟩), ?_⟩
  intro ref href
  rcases List.mem_append.1 href with hin | hlast
  · exact (lists_insert h).stored ref hin
  · exact ⟨e, List.mem_singleton.1 hlast ▸ Store.get?_insert_self, he⟩

/-! ## Notices -/

theorem Keeps.of_eq (h : s.Keeps F) (hkernel : s'.kernel = s.kernel) (hknown : s'.known = s.known)
    (hsize : s'.formulaSize = s.formulaSize) (hanalyzer : s'.analyzer = s.analyzer)
    (horder : s'.order = s.order) (hcertificate : s'.certificate = s.certificate)
    (hrefuted : s'.refuted = s.refuted)
    (hcalm : Notice.rootConflict ∉ s'.journal) : s'.Keeps F where
  represents := hkernel ▸ h.represents
  known := by
    unfold Solver.store
    rw [hkernel, hknown]
    exact h.known
  originals := by
    unfold Solver.store
    rw [hkernel, hsize]
    exact h.originals
  clear := hanalyzer ▸ h.clear
  covers := by
    unfold Solver.trail
    rw [hkernel, horder]
    exact h.covers
  certified := by
    unfold Solver.trail Solver.store
    rw [hkernel, hcertificate]
    exact h.certified
  calm := hcalm
  undecided := hrefuted.trans h.undecided

theorem calm_push {journal : Array Notice} (h : Notice.rootConflict ∉ journal)
    (hn : n ≠ .rootConflict) : Notice.rootConflict ∉ journal.push n := by
  rw [Array.mem_push, not_or]
  exact ⟨h, hn.symm⟩

theorem Keeps.note (h : s.Keeps F) (hn : n ≠ .rootConflict) : (s.note n).Keeps F :=
  { h with calm := calm_push h.calm hn }

theorem Keeps.noteAll (h : s.Keeps F) (hns : ∀ n ∈ ns, n ≠ .rootConflict) :
    (s.noteAll ns).Keeps F :=
  { h with
    calm := by
      unfold Solver.noteAll
      rw [Array.mem_append, not_or]
      exact ⟨h.calm, fun hin => hns _ (List.mem_toArray.1 hin) rfl⟩ }

theorem ne_rootConflict_of_mem_assignments {size : Nat} {t : Trail} (hn : n ∈ assignments size t) :
    n ≠ .rootConflict := by
  unfold assignments at hn
  obtain ⟨l, -, rfl⟩ := List.mem_map.1 hn
  simp

theorem ne_rootConflict_of_ofEvent {ev : Event} (hn : Notice.ofEvent ev = some n) :
    n ≠ .rootConflict := by
  cases ev <;> simp [Notice.ofEvent] at hn <;> simp [← hn]

/-! ## Changes of the parts -/

theorem Keeps.follow (h : s.Keeps F) (hf : s.kernel.Follows k) (ho : o.Covers k.trail) :
    Keeps { s with kernel := k, order := o } F :=
  { h with
    represents := h.represents.of_follows hf
    known := by
      intro key ref href
      obtain ⟨e, he, hgiven, hkey⟩ := h.known key ref href
      obtain ⟨e', he', hface⟩ := hf.alike.get? he
      exact ⟨e', he', (congrArg (fun f => f.2.1) hface).trans hgiven,
        (congrArg Prod.fst hface).trans hkey⟩
    originals := h.originals.trans hf.alike.refs_perm.length_eq.symm
    covers := ho
    certified := by
      intro c hc
      obtain ⟨hempty, hcert⟩ := h.certified c hc
      exact ⟨hempty, hcert.mono hf.retains (Certificate.Covered.of_alike hf.alike)⟩ }

theorem Keeps.setKernel (h : s.Keeps F) (hf : s.kernel.Follows k) (ho : s.order.Covers k.trail) :
    (s.setKernel k).Keeps F :=
  (h.follow hf ho).noteAll fun _ => ne_rootConflict_of_mem_assignments

theorem Keeps.setOrder (h : s.Keeps F) (ho : o.Covers s.trail) : (s.setOrder o).Keeps F := by
  refine (h.follow (Kernel.Follows.refl _) ho).noteAll fun n hn => ?_
  rw [List.eq_of_mem_replicate hn]
  simp

theorem Keeps.setCertificate {g : Log} {c : Certificate} (h : s.Keeps F) (hempty : c.empty = none)
    (hc : c.Certifies s.trail s.store) : (s.setCertificate g c).Keeps F := by
  have hset : Keeps { s with certificate := some c } F :=
    { h with
      certified := by
        intro c' hc'
        obtain rfl := Option.some.inj hc'
        exact ⟨hempty, hc⟩ }
  refine hset.noteAll fun n hn => ?_
  obtain ⟨ev, -, hev⟩ := List.mem_filterMap.1 hn
  exact ne_rootConflict_of_ofEvent hev

end Solver
end Cdcl
