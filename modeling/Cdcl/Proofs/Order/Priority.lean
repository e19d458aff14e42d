import Cdcl.Proofs.Order.Invariant

/-!
# A heap of variables is a priority queue

`Heap.Operation` lists what can be done to a heap, and `Heap.Runs` is any sequence of such operations
on variables that have a score, with scores from a linear order. After every run from the empty heap
the heap `IsPriorityQueue`: its two tables are inverse to each other, the order holds everywhere, and
what is taken is a highest queued variable. Each further operation has a result and its `Effect` on
the queued variables and on the scores (`Runs.priority_queue`).
-/

namespace Cdcl.Order.Heap
set_option autoImplicit false

variable {α : Type} [LinearOrder α] {h h' : Heap α} {v : Var}

/-! ## Operations -/

/-- What can be done to a heap. -/
inductive Operation (α : Type) where
  | grow (vars : Nat) (zero : α)
  | insert (v : Var)
  | pop
  | increase (v : Var) (raise : α → α)
  | rescale (shrink : α → α)

namespace Operation

/-- Taking from an empty heap changes nothing. -/
def run (h : Heap α) : Operation α → Except Fault (Heap α)
  | grow vars zero => h.grow vars zero
  | insert v => h.insert v
  | pop =>
    match h.pop with
    | some (_, h) => .ok h
    | none => .ok h
  | increase v raise => h.increase v raise
  | rescale shrink => .ok (h.rescale shrink)

/-- Variables have a score, a raise lowers no score, and scaling keeps the order of the scores. -/
def Fits (h : Heap α) : Operation α → Prop
  | insert v => h.Names v
  | increase v raise => h.Names v ∧ ∀ a, a ≤ raise a
  | rescale shrink => Monotone shrink
  | grow .. | pop => True

/-- What the operation makes of the queued variables and of the scores. -/
def Effect (h h' : Heap α) : Operation α → Prop
  | grow vars zero => (∀ u, h'.Queues u ↔ h.Queues u) ∧
      ∀ u, h'.score u = if u.id < h.scores.cells.size then h.score u
        else if u.id ≤ vars then .ok zero else .error .indexOutOfBounds
  | insert v => (∀ u, h'.Queues u ↔ h.Queues u ∨ u = v) ∧ ∀ u, h'.score u = h.score u
  | pop => (∀ u, h'.Queues u ↔ h.Queues u ∧ h.pop.map Prod.fst ≠ some u) ∧
      ∀ u, h'.score u = h.score u
  | increase v raise => (∀ u, h'.Queues u ↔ h.Queues u) ∧
      ∀ u, h'.score u = if u = v then (h.score u).map raise else h.score u
  | rescale shrink => (∀ u, h'.Queues u ↔ h.Queues u) ∧
      ∀ u, 1 ≤ u.id → h'.score u = (h.score u).map shrink

variable {op : Operation α}

theorem run_pop_cases (hr : pop.run h = .ok h') :
    (h.pop = none ∧ h' = h) ∨ ∃ v, h.pop = some (v, h') := by
  cases hp : h.pop with
  | none =>
    simp only [run, hp, Except.ok.injEq] at hr
    exact Or.inl ⟨rfl, hr.symm⟩
  | some found =>
    obtain ⟨v, h₁⟩ := found
    simp only [run, hp, Except.ok.injEq] at hr
    exact Or.inr ⟨v, by rw [hr]⟩

theorem run_sound (hs : h.Sound) (hf : op.Fits h) (hr : op.run h = .ok h') : h'.Sound := by
  cases op with
  | grow vars zero => exact hs.grow hr
  | insert v => exact hs.insert hf hr
  | pop =>
    obtain ⟨-, rfl⟩ | ⟨v, hp⟩ := run_pop_cases hr
    · exact hs
    · exact hs.pop hp
  | increase v raise => exact hs.increase hf.1 hf.2 hr
  | rescale shrink =>
    obtain rfl := Except.ok.inj hr
    exact hs.rescale hf

theorem run_effect (hs : h.Sound) (hr : op.run h = .ok h') : op.Effect h h' := by
  cases op with
  | grow vars zero =>
    have hqueues := (grow_eq_ok hs.linked hr).queues
    obtain ⟨scores, places, hscores, -, rfl⟩ := grow_cases hr
    exact ⟨hqueues, fun u => VarMap.get_grow hscores⟩
  | insert v =>
    refine ⟨(insert_eq_ok hs.linked hr).2, fun u => ?_⟩
    obtain ⟨-, ⟨-, rfl⟩ | ⟨-, rfl⟩⟩ := insert_cases hs.linked hr
    · rfl
    · rw [score, scores_siftUp]
      rfl
  | pop =>
    obtain ⟨hp, rfl⟩ | ⟨v, hp⟩ := run_pop_cases hr
    · simp [Effect, hp]
    · obtain ⟨-, -, -, hqueues⟩ := pop_eq_some hs.linked hp
      refine ⟨fun u => (hqueues u).trans ?_, fun u => ?_⟩
      · simp [hp, eq_comm]
      · rw [score, score, scores_pop hp]
  | increase v raise =>
    refine ⟨(increase_eq_ok hs.linked hr).queues, fun u => ?_⟩
    obtain ⟨old, place, hold, -, rfl⟩ := increase_cases hr
    have hscores : ∀ h₁ : Heap α, h₁.scores = (h.rescored v (raise old)).scores →
        h₁.score u = if u = v then (h.score u).map raise else h.score u := by
      intro h₁ hsame
      rw [score, hsame, rescored, VarMap.get_put (VarMap.lt_size_of_get hold)]
      split
      · next hu => rw [hu, score, hold, Except.map]
      · rfl
    cases place with
    | none => exact hscores _ rfl
    | some i => exact hscores _ scores_siftUp
  | rescale shrink =>
    obtain rfl := Except.ok.inj hr
    exact ⟨fun u => Iff.rfl, fun u hu => VarMap.get_map shrink (Nat.ne_of_gt hu)⟩

theorem run_succeeds (hs : h.Sound) (hf : op.Fits h) : (∃ h', op.run h = .ok h') ∨
    ∃ vars zero, op = .grow vars zero ∧ Word.addressable ≤ (vars + 1) * cellWidth := by
  cases op with
  | grow vars zero =>
    by_cases hcells : (vars + 1) * cellWidth < Word.addressable
    · have hvars : vars + 1 < Word.limit := by
        have haddressable : (9223372036854775808 : Nat) = Word.addressable := rfl
        have hlimit : (18446744073709551616 : Nat) = Word.limit := rfl
        unfold cellWidth at hcells
        omega
      obtain ⟨scores, hscores⟩ := h.scores.grow_of_addressable zero hvars hcells
      obtain ⟨places, hplaces⟩ := h.places.grow_of_addressable none hvars hcells
      exact Or.inl ⟨_, bind_eq_ok_iff.2 ⟨_, hscores, bind_eq_ok_iff.2 ⟨_, hplaces, rfl⟩⟩⟩
    · exact Or.inr ⟨vars, zero, rfl, Nat.le_of_not_lt hcells⟩
  | insert v =>
    obtain ⟨h', hr, -⟩ := insert_succeeds (hs.sizes.symm ▸ hf.2 : v.id < h.places.cells.size)
    exact Or.inl ⟨h', hr⟩
  | pop =>
    left
    cases hp : h.pop with
    | none => exact ⟨h, by simp only [run, hp]⟩
    | some found => exact ⟨found.2, by simp only [run, hp]⟩
  | increase v raise =>
    obtain ⟨hv, hlt⟩ := hf.1
    have hroom : h.Room v.id := ⟨fun u hu => Nat.lt_of_le_of_lt hu.2 hlt,
      fun u hu => hs.sizes.symm ▸ Nat.lt_of_le_of_lt hu.2 hlt⟩
    obtain ⟨h', hr, -⟩ := increase_succeeds raise hroom ⟨hv, Nat.le_refl _⟩
    exact Or.inl ⟨h', hr⟩
  | rescale shrink => exact Or.inl ⟨_, rfl⟩

/-- Only growing makes room for further variables. -/
theorem names_run (hr : op.run h = .ok h') : h'.Names v ↔
    h.Names v ∨ 1 ≤ v.id ∧ ∃ vars zero, op = .grow vars zero ∧ v.id ≤ vars := by
  have hkept : h.SameSize h' → (∀ vars zero, op ≠ .grow vars zero) → (h'.Names v ↔
      h.Names v ∨ 1 ≤ v.id ∧ ∃ vars zero, op = .grow vars zero ∧ v.id ≤ vars) := by
    rintro ⟨hsize, -⟩ hop
    simp [Names, hsize, hop]
  cases op with
  | grow vars zero =>
    obtain ⟨scores, places, hscores, -, rfl⟩ := grow_cases hr
    have hsize := (VarMap.grow_eq_ok hscores).2
    simp only [Names, hsize, grow.injEq]
    constructor
    · intro hv
      by_cases hold : v.id < h.scores.cells.size
      · exact Or.inl ⟨hv.1, hold⟩
      · exact Or.inr ⟨hv.1, vars, zero, ⟨rfl, rfl⟩, by omega⟩
    · rintro (hv | ⟨hv, _, _, ⟨rfl, rfl⟩, hle⟩)
      · exact ⟨hv.1, by omega⟩
      · exact ⟨hv, by omega⟩
  | insert v => exact hkept (sameSize_insert hr) nofun
  | pop =>
    refine hkept ?_ nofun
    obtain ⟨-, rfl⟩ | ⟨v, hp⟩ := run_pop_cases hr
    · exact .refl _
    · exact sameSize_pop hp
  | increase v raise => exact hkept (sameSize_increase hr) nofun
  | rescale shrink =>
    obtain rfl := Except.ok.inj hr
    exact hkept sameSize_rescale nofun

end Operation

/-! ## Runs of operations -/

/-- The operations lead from one heap to another, and each of them fits when its turn comes. -/
inductive Runs : Heap α → List (Operation α) → Heap α → Prop where
  | nil (h : Heap α) : Runs h [] h
  | cons {h h' h'' : Heap α} {op : Operation α} {ops : List (Operation α)} (fits : op.Fits h)
      (step : op.run h = .ok h') (rest : Runs h' ops h'') : Runs h (op :: ops) h''

/-- What a heap promises as a priority queue over its variables. -/
structure IsPriorityQueue (h : Heap α) : Prop where
  /-- The places are the inverse of the queue. -/
  inverse : ∀ v i, h.places.get v = .ok (some i) ↔ h.queue[i]? = some v
  /-- No variable is queued twice. -/
  nodup : h.queue.toList.Nodup
  /-- There are no more places than variables. -/
  few : ∀ i < h.queue.size, i + 1 < h.scores.cells.size
  /-- Every queued variable has a score. -/
  scored : ∀ v, h.Queues v → ∃ a, h.score v = .ok a
  /-- No variable has a higher score than the one at the place above. -/
  ordered : ∀ (i : Nat) u v a b, 0 < i → h.queue[i]? = some u → h.queue[(i - 1) / 2]? = some v →
    h.score u = .ok a → h.score v = .ok b → a ≤ b
  /-- Inserting a queued variable changes nothing. -/
  insert_queued : ∀ v, h.Queues v → h.insert v = .ok h
  /-- A variable is taken unless none is queued. -/
  pop_none : h.pop = none ↔ ∀ v, ¬ h.Queues v
  /-- A highest queued variable is taken, it alone leaves the queue, and no score changes. -/
  pop_some : ∀ v h', h.pop = some (v, h') → h.Queues v ∧
    (∀ u a b, h.Queues u → h.score u = .ok a → h.score v = .ok b → a ≤ b) ∧
    (∀ u, h'.Queues u ↔ h.Queues u ∧ u ≠ v) ∧ h'.scores = h.scores

theorem Sound.size_le (hs : h.Sound) : h.queue.size ≤ h.scores.cells.size - 1 := by
  have hnodup : (h.queue.toList.map Var.id).Nodup :=
    hs.linked.nodup.map fun u v he => congrArg Var.mk he
  have hsub : h.queue.toList.map Var.id ⊆ List.range' 1 (h.scores.cells.size - 1) := by
    intro n hn
    obtain ⟨v, hv, rfl⟩ := List.mem_map.1 hn
    obtain ⟨i, hi⟩ := List.mem_iff_getElem?.1 hv
    obtain ⟨hpos, hlt⟩ := hs.names v ⟨i, by rwa [← Array.getElem?_toList]⟩
    exact List.mem_range'_1.2 ⟨hpos, by omega⟩
  simpa using (List.subperm_of_subset hnodup hsub).length_le

theorem Sound.isPriorityQueue (hs : h.Sound) : h.IsPriorityQueue where
  inverse v i := by
    rw [← hs.linked v i, VarMap.get_eq_getD none]
    split
    · rw [Except.ok.injEq]
    · next hout =>
      rw [VarMap.getD, Array.getD_eq_getD_getElem?, Array.getElem?_eq_none (Nat.le_of_not_lt hout)]
      simp
  nodup := hs.linked.nodup
  few i hi := by
    have hle := hs.size_le
    omega
  scored v hv := VarMap.Room.get (hs.names v hv).2
  ordered i u v a b _ hu hv ha hb := by
    have hle := hs.ordered i
    rw [key_of_queue hu, key_of_queue (show h.queue[parent i]? = some v from hv), rank_of_get ha,
      rank_of_get hb] at hle
    exact WithBot.coe_le_coe.1 hle
  insert_queued v hv := by
    obtain ⟨h', hi, -⟩ :=
      insert_succeeds (hs.sizes.symm ▸ (hs.names v hv).2 : v.id < h.places.cells.size)
    obtain ⟨-, ⟨-, rfl⟩ | ⟨hout, -⟩⟩ := insert_cases hs.linked hi
    · exact hi
    · exact absurd hv hout
  pop_none := by
    refine ⟨pop_eq_none, fun hnone => ?_⟩
    cases hp : h.pop with
    | none => rfl
    | some found => exact absurd (pop_eq_some hs.linked hp).2.1 (hnone found.1)
  pop_some v h' hp := by
    obtain ⟨-, hv, -, hqueues⟩ := pop_eq_some hs.linked hp
    obtain ⟨htop, -⟩ := pop_cases hp
    refine ⟨hv, fun u a b hu ha hb => ?_, hqueues, scores_pop hp⟩
    obtain ⟨i, hi⟩ := hu
    have hle := hs.ordered.le_top i
    rw [key_of_queue hi, key_of_queue htop, rank_of_get ha, rank_of_get hb] at hle
    exact WithBot.coe_le_coe.1 hle

namespace Runs

variable {ops : List (Operation α)}

theorem sound (hr : Runs h ops h') (hs : h.Sound) : h'.Sound := by
  induction hr with
  | nil => exact hs
  | cons fits step _ ih => exact ih (Operation.run_sound hs fits step)

theorem names_iff (hr : Runs h ops h') : h'.Names v ↔
    h.Names v ∨ 1 ≤ v.id ∧ ∃ vars zero, .grow vars zero ∈ ops ∧ v.id ≤ vars := by
  induction hr with
  | nil => simp
  | cons fits step _ ih =>
    rw [ih, Operation.names_run step]
    simp only [List.mem_cons, or_and_right, exists_or, and_or_left, or_assoc, eq_comm]

/-- After any run of operations from the empty heap, the heap is a priority queue over the variables
that some growing has made room for, and each further operation that fits has a result with its
effect, unless it asks for more room than can be addressed. -/
theorem priority_queue (hr : Runs {} ops h) :
    h.IsPriorityQueue ∧
    (∀ v, h.Names v ↔ 1 ≤ v.id ∧ ∃ vars zero, .grow vars zero ∈ ops ∧ v.id ≤ vars) ∧
    ∀ op : Operation α, op.Fits h → (∃ h', op.run h = .ok h' ∧ op.Effect h h') ∨
      ∃ vars zero, op = .grow vars zero ∧ Word.addressable ≤ (vars + 1) * cellWidth := by
  have hs := hr.sound .empty
  refine ⟨hs.isPriorityQueue, fun v => ?_, fun op hf => ?_⟩
  · rw [hr.names_iff]
    simp [Names, VarMap.empty]
  · rcases Operation.run_succeeds hs hf with ⟨h', hrun⟩ | hroom
    · exact Or.inl ⟨h', hrun, Operation.run_effect hs hrun⟩
    · exact Or.inr hroom

/-- A variable that was taken is raised nevertheless and comes back later, a queued one is inserted
again, and what is taken last is the only one that is queued. -/
theorem priority_queue_one_left : ∃ h h' : Heap Nat,
    Runs {} [.grow 2 0, .insert ⟨1⟩, .insert ⟨2⟩, .grow 3 0, .insert ⟨3⟩, .increase ⟨3⟩ (· + 5),
      .increase ⟨2⟩ (· + 8), .pop, .increase ⟨2⟩ (· + 4), .rescale (· / 2), .pop, .insert ⟨1⟩,
      .insert ⟨2⟩, .pop] h ∧
    h.IsPriorityQueue ∧ h.queue = #[⟨1⟩] ∧ h.scores.cells = #[0, 0, 6, 2] ∧ h.Names ⟨3⟩ ∧
    h.insert ⟨1⟩ = .ok h ∧ h.pop = some (⟨1⟩, h') ∧ ∀ u, ¬ h'.Queues u := by
  have hrun : Runs {} [.grow 2 0, .insert ⟨1⟩, .insert ⟨2⟩, .grow 3 0, .insert ⟨3⟩,
      .increase ⟨3⟩ (· + 5), .increase ⟨2⟩ (· + 8), .pop, .increase ⟨2⟩ (· + 4), .rescale (· / 2),
      .pop, .insert ⟨1⟩, .insert ⟨2⟩, .pop]
      (⟨⟨#[0, 0, 6, 2]⟩, #[⟨1⟩], ⟨#[none, some 0, none, none]⟩⟩ : Heap Nat) := by
    have hraise : ∀ n a : Nat, a ≤ a + n := fun n a => Nat.le_add_right a n
    have hshrink : Monotone fun a : Nat => a / 2 := fun a b hab => Nat.div_le_div_right hab
    exact .cons trivial (by cbv) <| .cons ⟨by decide, by decide⟩ (by cbv) <|
      .cons ⟨by decide, by decide⟩ (by cbv) <| .cons trivial (by cbv) <|
      .cons ⟨by decide, by decide⟩ (by cbv) <|
      .cons ⟨⟨by decide, by decide⟩, hraise 5⟩ (by cbv) <|
      .cons ⟨⟨by decide, by decide⟩, hraise 8⟩ (by cbv) <| .cons trivial (by cbv) <|
      .cons ⟨⟨by decide, by decide⟩, hraise 4⟩ (by cbv) <| .cons hshrink (by cbv) <|
      .cons trivial (by cbv) <| .cons ⟨by decide, by decide⟩ (by cbv) <|
      .cons ⟨by decide, by decide⟩ (by cbv) <| .cons trivial (by cbv) <| .nil _
  have hpop : pop (⟨⟨#[0, 0, 6, 2]⟩, #[⟨1⟩], ⟨#[none, some 0, none, none]⟩⟩ : Heap Nat) =
      some (⟨1⟩, ⟨⟨#[0, 0, 6, 2]⟩, #[], ⟨#[none, none, none, none]⟩⟩) := by cbv
  obtain ⟨hqueue, hnames, -⟩ := priority_queue hrun
  refine ⟨_, _, hrun, hqueue, rfl, rfl, (hnames ⟨3⟩).2 ⟨by decide, 3, 0, by simp, by decide⟩,
    hqueue.insert_queued ⟨1⟩ ⟨0, rfl⟩, hpop, ?_⟩
  rintro u ⟨i, hi⟩
  simp at hi

end Runs
end Cdcl.Order.Heap
