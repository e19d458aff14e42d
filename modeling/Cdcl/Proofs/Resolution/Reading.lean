import Mathlib.Tactic.Basic
import Cdcl.Literal.Lemmas
import Cdcl.Resolution.Event

/-!
# Reading what was written

`Event.words` are the words of an event, and `Event.heard` is the event as it is read back from
them: distances keep 31 bits, everything else stays (`read_words`). A log that consists of the words
of fitting events decodes to these events as they are heard (`decode_wordsFrom`), and to the very
same events as long as fewer than `2 ^ 31` clauses are numbered (`heardFrom_eq_self`).
-/

namespace Cdcl.Event
set_option autoImplicit false

/-- Variables below this number have literals whose doubled codes fill a word. -/
def varLimit : Nat := 0x40000000

/-- Distances below this number are read back as they were written. -/
def distanceLimit : Nat := 0x80000000

/-- The words of the steps of the chain that derives clause `id`. -/
def stepPairs (id : ClauseId) : List ResolutionStep → List Nat
  | [] => []
  | (v, next) :: steps => v.id :: (id - next) :: stepPairs id steps

/-- The words of an event in a log whose next clause has number `next`. -/
def words (next : ClauseId) : Event → List Nat
  | .root _ literals => rootWords literals
  | .chain id start steps => (doubled (id - start) + 1) :: (stepPairs id steps ++ [0])
  | .deleted gone => deletionWords next gone

/-- A distance as it is read back. -/
def kept (back : Nat) : Nat := doubled back / 2

/-- An event as it is read back. -/
def heard (next : ClauseId) : Event → Event
  | .root id literals => .root id literals
  | .chain id start steps => .chain id (id - kept (id - start)) steps
  | .deleted gone => .deleted (next - kept (next - gone))

/-- A literal whose code fits a word of a log. -/
def LiteralFits (l : Literal) : Prop := 1 ≤ l.var.id ∧ l.var.id < varLimit

/-- An event that may be recorded when the next clause has number `next`. -/
def Fits (next : ClauseId) : Event → Prop
  | .root id literals => id = next ∧ Literal.Ascending literals ∧ ∀ l ∈ literals, LiteralFits l
  | .chain id start steps =>
    id = next ∧ start ≤ id ∧ steps ≠ [] ∧ ∀ s ∈ steps, s.1.id ≠ 0 ∧ s.2 ≤ id
  | .deleted gone => gone < next

/-! ## Distances -/

theorem doubled_mod_two (n : Nat) : doubled n % 2 = 0 := by
  unfold doubled wordLimit
  omega

theorem kept_le (back : Nat) : kept back ≤ back := by
  unfold kept doubled
  have := Nat.mod_le (2 * back) wordLimit
  omega

theorem kept_eq_self {back : Nat} (h : back < distanceLimit) : kept back = back := by
  unfold kept doubled wordLimit
  unfold distanceLimit at h
  omega

theorem chain_head_half (back : Nat) : (doubled back + 1) / 2 = kept back := by
  have := doubled_mod_two back
  unfold kept
  omega

theorem backFrom_kept {id : ClauseId} {back : Nat} (h : back ≤ id) :
    backFrom id (kept back) = .ok (id - kept back) :=
  if_pos (Nat.le_trans (kept_le back) h)

/-! ## Roots -/

theorem LiteralFits.two_le_code {l : Literal} (h : LiteralFits l) : 2 ≤ l.code := by
  have := h.1
  unfold Literal.code
  omega

theorem LiteralFits.code_lt {l : Literal} (h : LiteralFits l) : 2 * l.code < wordLimit := by
  have hlt := h.2
  have hneg : l.negative.toNat ≤ 1 := Bool.toNat_le l.negative
  unfold varLimit at hlt
  unfold Literal.code wordLimit
  omega

theorem ofCode_code {l : Literal} (h : 1 ≤ l.var.id) : Literal.ofCode l.code = .ok l := by
  have hcode : ¬ l.code < 2 := by
    unfold Literal.code
    omega
  unfold Literal.ofCode
  rw [if_neg hcode, Literal.decode_code]

/-- The literal of the same sign whose variable has a lower number. -/
def lowered (d : Nat) (l : Literal) : Literal := ⟨⟨l.var.id - d⟩, l.negative⟩

theorem code_lowered {d : Nat} {l : Literal} (h : d ≤ l.var.id) :
    (lowered d l).code + 2 * d = l.code := by
  unfold Literal.code lowered
  dsimp only
  omega

/-- Read from a lower code on, the same differences tell lower literals. -/
theorem readLiterals_codeGaps {d : Nat} {l : Literal} {ls : List Literal} (rest : List Nat)
    (hasc : Literal.Ascending (l :: ls)) (hl : d ≤ l.var.id) (hls : ∀ m ∈ ls, d < m.var.id) :
    readLiterals (lowered d l).code (codeGaps (l :: ls) ++ 0 :: rest) =
      .ok (ls.map (lowered d), rest) := by
  induction ls generalizing l with
  | nil => simp [codeGaps, readLiterals]
  | cons m ms ih =>
    obtain ⟨hm, hms⟩ := List.forall_mem_cons.1 hls
    rw [Literal.Ascending, List.pairwise_cons] at hasc
    have hlt : l.code < m.code := hasc.1 m List.mem_cons_self
    have hgap : m.code - l.code ≠ 0 := by omega
    have hcode : (lowered d l).code + (m.code - l.code) = (lowered d m).code := by
      have hlow := code_lowered hl
      have hmow := code_lowered (Nat.le_of_lt hm)
      omega
    have hpos : 1 ≤ (lowered d m).var.id := Nat.sub_pos_of_lt hm
    have hrec := ih hasc.2 (Nat.le_of_lt hm) hms
    rw [codeGaps, List.cons_append, readLiterals, if_neg hgap, hcode, ofCode_code hpos]
    simp only [bind, Except.bind, hrec, List.map_cons]

theorem readRoot_rootWords {ls : List Literal} (rest : List Nat) (hasc : Literal.Ascending ls)
    (hpos : ∀ m ∈ ls, 1 ≤ m.var.id) (hfirst : ∀ l ∈ ls.head?, l.var.id < varLimit) :
    readRoot (rootHead ls) (codeGaps ls ++ 0 :: rest) = .ok (ls, rest) := by
  cases ls with
  | nil => simp [rootHead, readRoot, codeGaps, readLiterals]
  | cons l ls =>
    obtain ⟨hl, hls⟩ := List.forall_mem_cons.1 hpos
    have hfit : LiteralFits l := ⟨hl, hfirst l rfl⟩
    have hcode := hfit.two_le_code
    have hne : 2 * l.code ≠ emptyRoot := by
      unfold emptyRoot
      omega
    have hhalf : 2 * l.code / 2 = l.code := by omega
    have hsame : ls.map (lowered 0) = ls := List.map_id ls
    have hrec : readLiterals l.code (codeGaps (l :: ls) ++ 0 :: rest) = .ok (ls, rest) :=
      (readLiterals_codeGaps (d := 0) rest hasc (Nat.zero_le _) hls).trans (by rw [hsame])
    rw [rootHead, doubled, Nat.mod_eq_of_lt hfit.code_lt, readRoot, if_neg hne, hhalf,
      ofCode_code hl]
    simp only [bind, Except.bind, hrec]

theorem rootHead_even {ls : List Literal} : rootHead ls % 2 = 0 := by
  cases ls with
  | nil => rfl
  | cons l ls => exact doubled_mod_two l.code

/-! ## Chains -/

theorem readSteps_stepPairs {id : ClauseId} {steps : List ResolutionStep} (rest : List Nat)
    (h : ∀ s ∈ steps, s.1.id ≠ 0 ∧ s.2 ≤ id) :
    readSteps id (stepPairs id steps ++ 0 :: rest) = .ok (steps, rest) := by
  induction steps with
  | nil => simp [stepPairs, readSteps]
  | cons s steps ih =>
    obtain ⟨v, next⟩ := s
    obtain ⟨hv, hnext⟩ : v.id ≠ 0 ∧ next ≤ id := h _ List.mem_cons_self
    have hback : backFrom id (id - next) = .ok next := by
      unfold backFrom
      rw [if_pos (Nat.sub_le id next), Nat.sub_sub_self hnext]
    have hrec := ih fun s hs => h s (List.mem_cons_of_mem _ hs)
    rw [stepPairs, List.cons_append, List.cons_append, readSteps.eq_4 _ _ _ _ hv, hback]
    simp only [bind, Except.bind, hrec]

/-! ## Whole events -/

/-- The words of an event are read back as the event that is heard. -/
theorem read_words {next : ClauseId} {e : Event} (h : e.Fits next) :
    ∃ head tail, e.words next = head :: tail ∧
      ∀ rest, read next head (tail ++ rest) = .ok (e.heard next, rest) := by
  cases e with
  | root id ls =>
    obtain ⟨rfl, hasc, hfit⟩ := h
    refine ⟨rootHead ls, codeGaps ls ++ [0], rfl, fun rest => ?_⟩
    rw [List.append_assoc, List.singleton_append, read, if_pos rootHead_even,
      readRoot_rootWords rest hasc (fun m hm => (hfit m hm).1)
        fun l hl => (hfit l (List.mem_of_mem_head? hl)).2]
    rfl
  | chain id start steps =>
    obtain ⟨rfl, hstart, hne, hsteps⟩ := h
    refine ⟨doubled (id - start) + 1, stepPairs id steps ++ [0], rfl, fun rest => ?_⟩
    have hodd : ¬ (doubled (id - start) + 1) % 2 = 0 := by
      have := doubled_mod_two (id - start)
      omega
    rw [List.append_assoc, List.singleton_append, read, if_neg hodd, chain_head_half,
      backFrom_kept (Nat.sub_le id start)]
    simp only [bind, Except.bind, readSteps_stepPairs rest hsteps]
    cases steps with
    | nil => exact absurd rfl hne
    | cons s steps => rfl
  | deleted gone =>
    refine ⟨doubled (next - gone) + 1, [0], rfl, fun rest => ?_⟩
    have hodd : ¬ (doubled (next - gone) + 1) % 2 = 0 := by
      have := doubled_mod_two (next - gone)
      omega
    rw [List.singleton_append, read, if_neg hodd, chain_head_half,
      backFrom_kept (Nat.sub_le next gone)]
    rfl

theorem recordsClause_heard (next : ClauseId) (e : Event) :
    (e.heard next).recordsClause = e.recordsClause := by
  cases e <;> rfl

/-! ## Whole logs -/

/-- The next clause number after an event. -/
def after (next : ClauseId) (e : Event) : ClauseId := if e.recordsClause then next + 1 else next

/-- The next clause number after a list of events. -/
def endFrom (next : ClauseId) : List Event → ClauseId
  | [] => next
  | e :: es => endFrom (after next e) es

/-- The words of events in turn. -/
def wordsFrom (next : ClauseId) : List Event → List Nat
  | [] => []
  | e :: es => e.words next ++ wordsFrom (after next e) es

/-- The events may be recorded one after the other. -/
def FitFrom (next : ClauseId) : List Event → Prop
  | [] => True
  | e :: es => e.Fits next ∧ FitFrom (after next e) es

/-- The events as they are read back. -/
def heardFrom (next : ClauseId) : List Event → List Event
  | [] => []
  | e :: es => e.heard next :: heardFrom (after next e) es

theorem decodeFrom_wordsFrom {next : ClauseId} {es : List Event} {fuel : Nat}
    (h : FitFrom next es) (hfuel : (wordsFrom next es).length ≤ fuel) :
    decodeFrom fuel next (wordsFrom next es) = (heardFrom next es, none) := by
  induction es generalizing next fuel with
  | nil =>
    cases fuel <;> rfl
  | cons e es ih =>
    obtain ⟨head, tail, hwords, hread⟩ := read_words h.1
    rw [wordsFrom, hwords, List.cons_append] at hfuel ⊢
    cases fuel with
    | zero => simp at hfuel
    | succ fuel =>
      have hlen : (wordsFrom (after next e) es).length ≤ fuel := by
        simp only [List.length_cons, List.length_append] at hfuel
        omega
      rw [decodeFrom.eq_3, hread]
      simp only [recordsClause_heard]
      rw [← after, ih h.2 hlen, heardFrom]

theorem decode_wordsFrom {next : ClauseId} {es : List Event} (h : FitFrom next es) :
    decode next (wordsFrom next es) = (heardFrom next es, none) :=
  decodeFrom_wordsFrom h (Nat.le_refl _)

/-! ## Adding events -/

theorem endFrom_append (next : ClauseId) (es ds : List Event) :
    endFrom next (es ++ ds) = endFrom (endFrom next es) ds := by
  induction es generalizing next with
  | nil => rfl
  | cons e es ih => exact ih (after next e)

theorem endFrom_concat (next : ClauseId) (es : List Event) (e : Event) :
    endFrom next (es ++ [e]) = after (endFrom next es) e := endFrom_append next es [e]

theorem wordsFrom_append (next : ClauseId) (es ds : List Event) :
    wordsFrom next (es ++ ds) = wordsFrom next es ++ wordsFrom (endFrom next es) ds := by
  induction es generalizing next with
  | nil => rfl
  | cons e es ih => rw [List.cons_append, wordsFrom, ih, wordsFrom, endFrom, List.append_assoc]

theorem wordsFrom_concat (next : ClauseId) (es : List Event) (e : Event) :
    wordsFrom next (es ++ [e]) = wordsFrom next es ++ e.words (endFrom next es) := by
  rw [wordsFrom_append, wordsFrom, wordsFrom, List.append_nil]

theorem fitFrom_concat {next : ClauseId} {es : List Event} {e : Event} :
    FitFrom next (es ++ [e]) ↔ FitFrom next es ∧ e.Fits (endFrom next es) := by
  induction es generalizing next with
  | nil => simp [FitFrom, endFrom]
  | cons d es ih => rw [List.cons_append, FitFrom, ih, FitFrom, endFrom, and_assoc]

theorem le_endFrom (next : ClauseId) (es : List Event) : next ≤ endFrom next es := by
  induction es generalizing next with
  | nil => exact Nat.le_refl next
  | cons e es ih =>
    refine Nat.le_trans ?_ (ih (after next e))
    unfold after
    split <;> omega

theorem heard_eq_self {next : ClauseId} {e : Event} (h : e.Fits next)
    (hnext : next < distanceLimit) : e.heard next = e := by
  cases e with
  | root id ls => rfl
  | chain id start steps =>
    obtain ⟨rfl, hstart, -, -⟩ := h
    rw [heard, kept_eq_self (Nat.lt_of_le_of_lt (Nat.sub_le id start) hnext), Nat.sub_sub_self hstart]
  | deleted gone =>
    have hgone : gone < next := h
    rw [heard, kept_eq_self (Nat.lt_of_le_of_lt (Nat.sub_le next gone) hnext),
      Nat.sub_sub_self (Nat.le_of_lt hgone)]

theorem heardFrom_eq_self {next : ClauseId} {es : List Event} (h : FitFrom next es)
    (hend : endFrom next es < distanceLimit) : heardFrom next es = es := by
  induction es generalizing next with
  | nil => rfl
  | cons e es ih =>
    have hnext : next < distanceLimit := Nat.lt_of_le_of_lt (le_endFrom next (e :: es)) hend
    rw [heardFrom, heard_eq_self h.1 hnext, ih h.2 hend]

end Cdcl.Event
