import Cdcl.Literal.Checked
import Cdcl.Proofs.Resolution.Reading
import Cdcl.Resolution.Replay

/-!
# Reading roots over large variables

The first word of a root doubles the code of its first literal and keeps 32 bits of it, so from
variable 2³⁰ on the highest bit is lost. The further words are differences, so all literals are read
with variables that are 2³⁰ too low, and one whose variable becomes 0 is not read at all
(`Event.rootHeard`). The first word of a root that starts with the literal 2³⁰ is 0, and there
reading ends. `Event.readBackFrom` is what is read of the words of events over all variables that
codes have (`decode_wide`).
-/

namespace Cdcl
set_option autoImplicit false

/-- A literal that a signed number of 32 bits names; the smallest such number names none. -/
def Literal.Named (l : Literal) : Prop :=
  ∃ i : Int, i.natAbs < Var.signedLimit ∧ Literal.ofInt i = .ok l

theorem Literal.named_iff {l : Literal} :
    l.Named ↔ 1 ≤ l.var.id ∧ l.var.id < Var.signedLimit := by
  constructor
  · rintro ⟨i, hi, hl⟩
    unfold Literal.ofInt at hl
    split at hl
    · exact absurd hl (by simp)
    · next hne =>
      obtain rfl : _ = l := Except.ok.inj hl
      change 1 ≤ i.natAbs % Var.signedLimit ∧ i.natAbs % Var.signedLimit < Var.signedLimit
      rw [Nat.mod_eq_of_lt hi]
      omega
  · obtain ⟨⟨v⟩, n⟩ := l
    rintro ⟨hpos, hlt⟩
    change 1 ≤ v at hpos
    change v < Var.signedLimit at hlt
    refine ⟨if n then -v else v, by cases n <;> simpa using hlt, ?_⟩
    unfold Literal.ofInt Var.literal
    cases n with
    | false =>
      rw [if_neg (by simp; omega)]
      simp [Nat.mod_eq_of_lt hlt]
    | true =>
      rw [if_neg (by simp; omega)]
      simp [Nat.mod_eq_of_lt hlt]
      omega

namespace Event

/-- The literal whose doubled code is cut to 0, which is the first word of no root. -/
def unheard : Literal := ⟨⟨varLimit⟩, false⟩

/-- The literal whose doubled code is cut to the first word of the empty root. -/
def blank : Literal := ⟨⟨varLimit⟩, true⟩

/-- The literals that the words of a root tell if they can be read. -/
def rootHeard : List Literal → List Literal
  | [] => []
  | l :: ls =>
    if l.var.id < varLimit then l :: ls
    else ((l :: ls).map (lowered varLimit)).filter fun m => m.var.id ≠ 0

/-- An event as it is read back, if it can be read. -/
def readBack (next : ClauseId) : Event → Except Fault Event
  | .root id ls =>
    if ls.head? = some unheard then .error (.codeWithoutVariable 0) else .ok (.root id (rootHeard ls))
  | .chain id start steps => .ok (heard next (.chain id start steps))
  | .deleted gone => .ok (heard next (.deleted gone))

/-- Events as they are read back, up to the first one that cannot be read. -/
def readBackFrom (next : ClauseId) : List Event → List Event × Option Fault
  | [] => ([], none)
  | e :: es =>
    match e.readBack next with
    | .error f => ([], some f)
    | .ok d => (d :: (readBackFrom (after next e) es).1, (readBackFrom (after next e) es).2)

/-- An event that may be recorded under number `next`, over all variables that codes have. -/
def Wide (next : ClauseId) : Event → Prop
  | .root id ls => id = next ∧ Literal.Ascending ls ∧ ∀ l ∈ ls, l.Named
  | .chain id start steps => Fits next (.chain id start steps)
  | .deleted gone => Fits next (.deleted gone)

/-- The events may be recorded one after the other, over all variables that codes have. -/
def WideFrom (next : ClauseId) : List Event → Prop
  | [] => True
  | e :: es => e.Wide next ∧ WideFrom (after next e) es

variable {next id : ClauseId} {e : Event} {es ds : List Event} {l : Literal} {ls : List Literal}

/-! ## Roots -/

theorem le_of_ascending (hasc : Literal.Ascending (l :: ls)) {m : Literal} (hm : m ∈ l :: ls) :
    l.var.id ≤ m.var.id := by
  rcases List.mem_cons.1 hm with rfl | hm
  · exact Nat.le_refl _
  · have hcode : l.code < m.code := (List.pairwise_cons.1 hasc).1 m hm
    have := Bool.toNat_le m.negative
    unfold Literal.code at hcode
    omega

/-- Only the negative literal of a variable is followed by larger variables alone. -/
theorem lt_of_ascending (hasc : Literal.Ascending (l :: ls)) (hl : l.negative = true) {m : Literal}
    (hm : m ∈ ls) : l.var.id < m.var.id := by
  have hcode : l.code < m.code := (List.pairwise_cons.1 hasc).1 m hm
  have := Bool.toNat_le m.negative
  unfold Literal.code at hcode
  rw [hl, Bool.toNat_true] at hcode
  omega

theorem eq_blank (hvar : l.var.id = varLimit) (hne : l ≠ unheard) : l = blank := by
  obtain ⟨⟨v⟩, n⟩ := l
  obtain rfl : v = varLimit := hvar
  cases n with
  | false => exact absurd rfl hne
  | true => rfl

theorem doubled_code_lowered (hl : varLimit ≤ l.var.id) (hlt : l.var.id < Var.signedLimit) :
    doubled l.code = 2 * (lowered varLimit l).code := by
  have hcode := code_lowered hl
  have := Bool.toNat_le l.negative
  unfold varLimit at hl hcode ⊢
  unfold Var.signedLimit at hlt
  unfold doubled wordLimit
  have : l.code < 0x100000000 := by
    unfold Literal.code
    omega
  have : 0x80000000 ≤ l.code := by
    unfold Literal.code
    omega
  omega

/-- The first word cannot tell a literal of variable 2³⁰. -/
theorem readRoot_unheard (rest : List Nat) (h : ls.head? = some unheard) :
    readRoot (rootHead ls) rest = .error (.codeWithoutVariable 0) := by
  obtain ⟨ms, rfl⟩ := List.head?_eq_some_iff.1 h
  have hhead : rootHead (unheard :: ms) = 0 := rfl
  rw [hhead, readRoot, if_neg (by decide)]
  rfl

theorem readRoot_blank (rest : List Nat) (hasc : Literal.Ascending (blank :: ls)) :
    readRoot (rootHead (blank :: ls)) (codeGaps (blank :: ls) ++ 0 :: rest) =
      .ok (ls.map (lowered varLimit), rest) := by
  have hhead : rootHead (blank :: ls) = emptyRoot := rfl
  have hcode : emptyRoot / 2 = (lowered varLimit blank).code := rfl
  rw [hhead, readRoot, if_pos rfl, hcode]
  exact readLiterals_codeGaps rest hasc (Nat.le_refl _) fun m hm => lt_of_ascending hasc rfl hm

theorem readRoot_lowered (rest : List Nat) (hasc : Literal.Ascending (l :: ls))
    (hl : varLimit < l.var.id) (hlt : l.var.id < Var.signedLimit) :
    readRoot (rootHead (l :: ls)) (codeGaps (l :: ls) ++ 0 :: rest) =
      .ok ((l :: ls).map (lowered varLimit), rest) := by
  have hpos : 1 ≤ (lowered varLimit l).var.id := Nat.sub_pos_of_lt hl
  have hhead : rootHead (l :: ls) = 2 * (lowered varLimit l).code :=
    doubled_code_lowered (Nat.le_of_lt hl) hlt
  have hne : ¬ rootHead (l :: ls) = emptyRoot := by
    rw [hhead]
    unfold emptyRoot Literal.code
    omega
  have hhalf : rootHead (l :: ls) / 2 = (lowered varLimit l).code := by omega
  have hrec : readLiterals (lowered varLimit l).code (codeGaps (l :: ls) ++ 0 :: rest) =
      .ok (ls.map (lowered varLimit), rest) :=
    readLiterals_codeGaps rest hasc (Nat.le_of_lt hl) fun m hm =>
      Nat.lt_of_lt_of_le hl (le_of_ascending hasc (List.mem_cons_of_mem l hm))
  rw [readRoot, if_neg hne, hhalf, ofCode_code hpos]
  simp only [bind, Except.bind, hrec, List.map_cons]

/-- Literals that are all lowered to a variable stay, those that are lowered to none do not. -/
theorem filter_lowered (h : ∀ m ∈ ls, varLimit < m.var.id) :
    ((ls.map (lowered varLimit)).filter fun m => m.var.id ≠ 0) = ls.map (lowered varLimit) := by
  refine List.filter_eq_self.2 fun m hm => ?_
  obtain ⟨k, hk, rfl⟩ := List.mem_map.1 hm
  have hpos : (lowered varLimit k).var.id ≠ 0 := Nat.sub_ne_zero_of_lt (h k hk)
  simpa using hpos

theorem readRoot_wide (rest : List Nat) (hasc : Literal.Ascending ls) (hls : ∀ l ∈ ls, l.Named)
    (hhead : ls.head? ≠ some unheard) :
    readRoot (rootHead ls) (codeGaps ls ++ 0 :: rest) = .ok (rootHeard ls, rest) := by
  have hpos : ∀ l ∈ ls, 1 ≤ l.var.id := fun l hl => (Literal.named_iff.1 (hls l hl)).1
  cases ls with
  | nil => exact readRoot_rootWords rest hasc hpos (by simp)
  | cons l ls =>
    rw [rootHeard]
    by_cases hlow : l.var.id < varLimit
    · rw [if_pos hlow]
      exact readRoot_rootWords rest hasc hpos fun m hm => by simpa [← Option.some.inj hm] using hlow
    rw [if_neg hlow]
    by_cases hl : l.var.id = varLimit
    · -- of the two literals of variable 2³⁰ only the negative one is left
      obtain rfl : l = blank := eq_blank hl (by simpa using hhead)
      have hzero : (lowered varLimit blank).var.id = 0 := Nat.sub_self varLimit
      rw [readRoot_blank rest hasc, List.map_cons, List.filter_cons_of_neg (by simp [hzero]),
        filter_lowered fun m hm => lt_of_ascending hasc rfl hm]
    · have hlt : varLimit < l.var.id := by omega
      have hnamed := Literal.named_iff.1 (hls l List.mem_cons_self)
      rw [readRoot_lowered rest hasc hlt hnamed.2,
        filter_lowered fun m hm => Nat.lt_of_lt_of_le hlt (le_of_ascending hasc hm)]

/-- A root comes back as it was given if and only if it is empty or starts below variable 2³⁰. -/
theorem rootHeard_eq_self (hasc : Literal.Ascending ls) (hls : ∀ l ∈ ls, l.Named) :
    rootHeard ls = ls ↔ ls = [] ∨ ∃ l ∈ ls, l.var.id < varLimit := by
  cases ls with
  | nil => simp [rootHeard]
  | cons l ls =>
    rw [rootHeard]
    by_cases hlow : l.var.id < varLimit
    · simp [hlow]
    · have hhigh : ∀ m ∈ l :: ls, varLimit ≤ m.var.id := fun m hm =>
        Nat.le_trans (Nat.le_of_not_lt hlow) (le_of_ascending hasc hm)
      rw [if_neg hlow]
      constructor
      · intro heq
        have hlen : ((l :: ls).map (lowered varLimit)).length = (l :: ls).length :=
          List.length_map _
        have hall := List.length_filter_eq_length_iff.1
          ((congrArg List.length heq).trans hlen.symm)
        rw [List.filter_eq_self.2 hall, List.map_cons, List.cons.injEq] at heq
        have hvar : l.var.id - varLimit = l.var.id := congrArg (fun m => m.var.id) heq.1
        have hpos := (Literal.named_iff.1 (hls l List.mem_cons_self)).1
        unfold varLimit at hvar
        omega
      · rintro (hnil | ⟨m, hm, hlt⟩)
        · exact absurd hnil (by simp)
        · exact absurd (hhigh m hm) (Nat.not_le.2 hlt)

/-- A root that is read comes back empty if it holds no literal but the one that is blank. -/
theorem rootHeard_eq_nil (hasc : Literal.Ascending ls) (hhead : ls.head? ≠ some unheard) :
    rootHeard ls = [] ↔ ∀ l ∈ ls, l = blank := by
  cases ls with
  | nil => simp [rootHeard]
  | cons l ls =>
    rw [rootHeard]
    by_cases hlow : l.var.id < varLimit
    · rw [if_pos hlow]
      refine iff_of_false (by simp) fun h => ?_
      rw [h l List.mem_cons_self] at hlow
      exact Nat.lt_irrefl _ hlow
    · have hhigh : ∀ m ∈ l :: ls, varLimit ≤ m.var.id := fun m hm =>
        Nat.le_trans (Nat.le_of_not_lt hlow) (le_of_ascending hasc hm)
      rw [if_neg hlow, List.filter_eq_nil_iff]
      constructor
      · intro h
        have hvar : ∀ m ∈ l :: ls, m.var.id = varLimit := fun m hm => by
          have hzero : (lowered varLimit m).var.id = 0 := by
            simpa using h _ (List.mem_map_of_mem hm)
          exact Nat.le_antisymm (Nat.sub_eq_zero_iff_le.1 hzero) (hhigh m hm)
        obtain rfl : l = blank := eq_blank (hvar l List.mem_cons_self) (by simpa using hhead)
        refine List.forall_mem_cons.2 ⟨rfl, fun m hm => ?_⟩
        exact absurd (hvar m (List.mem_cons_of_mem _ hm)).symm
          (Nat.ne_of_lt (lt_of_ascending hasc rfl hm))
      · rintro h m hm
        obtain ⟨k, hk, rfl⟩ := List.mem_map.1 hm
        rw [h k hk]
        simp [lowered, blank]

/-! ## Events -/

theorem read_wide (h : e.Wide next) : ∃ head tail, e.words next = head :: tail ∧
    ∀ rest, read next head (tail ++ rest) = (e.readBack next).map fun d => (d, rest) := by
  cases e with
  | root id ls =>
    obtain ⟨rfl, hasc, hls⟩ := h
    refine ⟨rootHead ls, codeGaps ls ++ [0], rfl, fun rest => ?_⟩
    rw [List.append_assoc, List.singleton_append, read, if_pos rootHead_even, readBack]
    by_cases hhead : ls.head? = some unheard
    · rw [readRoot_unheard _ hhead, if_pos hhead]
      rfl
    · rw [readRoot_wide rest hasc hls hhead, if_neg hhead]
      rfl
  | chain id start steps => exact read_words h
  | deleted gone => exact read_words h

theorem readBack_eq_ok {d : Event} (h : e.readBack next = .ok d) :
    d.recordsClause = e.recordsClause ∧ Log.recorded d = Log.recorded e := by
  cases e with
  | root id ls =>
    rw [readBack] at h
    split at h
    · exact absurd h (by simp)
    · obtain rfl := Except.ok.inj h
      exact ⟨rfl, rfl⟩
  | chain id start steps =>
    obtain rfl := Except.ok.inj h
    exact ⟨rfl, rfl⟩
  | deleted gone =>
    obtain rfl := Except.ok.inj h
    exact ⟨rfl, rfl⟩

theorem decodeFrom_wide {fuel : Nat} (h : WideFrom next es)
    (hfuel : (wordsFrom next es).length ≤ fuel) :
    decodeFrom fuel next (wordsFrom next es) = readBackFrom next es := by
  induction es generalizing next fuel with
  | nil => cases fuel <;> rfl
  | cons e es ih =>
    obtain ⟨head, tail, hwords, hread⟩ := read_wide h.1
    rw [wordsFrom, hwords, List.cons_append] at hfuel ⊢
    cases fuel with
    | zero => simp at hfuel
    | succ fuel =>
      have hlen : (wordsFrom (after next e) es).length ≤ fuel := by
        simp only [List.length_cons, List.length_append] at hfuel
        omega
      rw [decodeFrom.eq_3, hread, readBackFrom]
      cases hback : e.readBack next with
      | error f => rfl
      | ok d =>
        simp only [Except.map, (readBack_eq_ok hback).1]
        rw [← after, ih h.2 hlen]

theorem decode_wide (h : WideFrom next es) :
    decode next (wordsFrom next es) = readBackFrom next es :=
  decodeFrom_wide h (Nat.le_refl _)

theorem wideFrom_append :
    WideFrom next (es ++ ds) ↔ WideFrom next es ∧ WideFrom (endFrom next es) ds := by
  induction es generalizing next with
  | nil => simp [WideFrom, endFrom]
  | cons e es ih => rw [List.cons_append, WideFrom, ih, WideFrom, endFrom, and_assoc]

theorem readBack_succeeds_iff :
    (∃ d, e.readBack next = .ok d) ↔ ∀ i ls, e = .root i ls → ls.head? ≠ some unheard := by
  cases e with
  | root id ls =>
    rw [readBack]
    by_cases hhead : ls.head? = some unheard
    · simp [hhead]
    · simp [hhead]
  | chain id start steps => simp [readBack]
  | deleted gone => simp [readBack]

/-- The events can all be read if no root starts with the literal whose first word is 0. -/
theorem readBackFrom_eq_none : (readBackFrom next es).2 = none ↔
    ∀ i ls, Event.root i ls ∈ es → ls.head? ≠ some unheard := by
  induction es generalizing next with
  | nil => simp [readBackFrom]
  | cons e es ih =>
    have hfirst : (∃ d, e.readBack next = .ok d) ↔ _ := readBack_succeeds_iff
    rw [readBackFrom]
    cases hback : e.readBack next with
    | error f =>
      rw [hback] at hfirst
      refine iff_of_false (by simp) fun h => ?_
      obtain ⟨d, hd⟩ := hfirst.2 fun i ls he => h i ls (he ▸ List.mem_cons_self)
      exact absurd hd (by simp)
    | ok d =>
      rw [ih]
      constructor
      · intro h i ls hmem
        rcases List.mem_cons.1 hmem with he | hmem
        · exact hfirst.1 ⟨d, hback⟩ i ls he.symm
        · exact h i ls hmem
      · exact fun h i ls hmem => h i ls (List.mem_cons_of_mem e hmem)

/-- Reading goes on with the events that follow unless it has stopped before. -/
theorem readBackFrom_append : readBackFrom next (es ++ ds) =
    match (readBackFrom next es).2 with
    | some f => ((readBackFrom next es).1, some f)
    | none => ((readBackFrom next es).1 ++ (readBackFrom (endFrom next es) ds).1,
        (readBackFrom (endFrom next es) ds).2) := by
  induction es generalizing next with
  | nil => rfl
  | cons e es ih =>
    rw [List.cons_append, readBackFrom, readBackFrom, endFrom]
    cases e.readBack next with
    | error f => rfl
    | ok d =>
      simp only [ih]
      cases (readBackFrom (after next e) es).2 <;> rfl

/-- What is read back has numbers that the log has given. -/
theorem recorded_lt_endFrom (h : WideFrom next es) {d : Event} (hd : d ∈ (readBackFrom next es).1)
    {i : ClauseId} (hi : Log.recorded d = some i) : i < endFrom next es := by
  induction es generalizing next with
  | nil => exact absurd hd (by simp [readBackFrom])
  | cons e es ih =>
    rw [readBackFrom] at hd
    cases hback : e.readBack next with
    | error f => simp [hback] at hd
    | ok d' =>
      simp only [hback] at hd
      rcases List.mem_cons.1 hd with rfl | hd
      · rw [(readBack_eq_ok hback).2] at hi
        refine Nat.lt_of_lt_of_le ?_ (le_endFrom (after next e) es)
        cases e with
        | root id ls =>
          obtain ⟨rfl, -, -⟩ := h.1
          obtain rfl : id = i := Option.some.inj hi
          exact Nat.lt_succ_self id
        | chain id start steps =>
          obtain ⟨rfl, -, -, -⟩ := h.1
          obtain rfl : id = i := Option.some.inj hi
          exact Nat.lt_succ_self id
        | deleted gone => exact absurd hi (by simp [Log.recorded])
      · exact ih h.2 hd

end Event
end Cdcl
