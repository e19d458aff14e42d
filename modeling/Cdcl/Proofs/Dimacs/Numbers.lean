import Mathlib.Data.List.Induction
import Mathlib.Data.Nat.Digits.Defs
import Cdcl.Proofs.Dimacs.Layout

/-!
# How numbers are written

`Digits`, `Numeral` and `Numbers` say how counts, whole numbers of 32 bits and rows of such numbers
are written, and `Header` how the header is. The reader finds a number exactly where one is written,
and it takes all of its digits. It reads a row to its end if and only if the row consists of numbers
(`integers_iff`).
-/

namespace Cdcl.Dimacs
set_option autoImplicit false

variable {c : Char} {cs ds s rest line : List Char} {i : Int} {is : List Int} {n fuel vars : Nat}

/-- What stands between two numbers: blanks, tabs, carriage returns and line feeds, at least one. -/
def Separators (s : List Char) : Prop := s ≠ [] ∧ ∀ c ∈ s, isSeparator c = true

/-- Decimal digits that stand for a number. -/
def Digits (ds : List Char) (n : Nat) : Prop :=
  ds ≠ [] ∧ (∀ c ∈ ds, c.isDigit = true) ∧
    n = Nat.ofDigits 10 (ds.reverse.map fun c => c.toNat - '0'.toNat)

/-- The digits of a whole number of 32 bits, maybe with a minus sign before them. -/
inductive Numeral : List Char → Int → Prop
  | unsigned {ds : List Char} {n : Nat} (h : Digits ds n) (hn : n < 2 ^ 31) : Numeral ds n
  | negated {ds : List Char} {n : Nat} (h : Digits ds n) (hn : n ≤ 2 ^ 31) :
    Numeral ('-' :: ds) (-n)

/-- A row of one or more numbers with separators between them. -/
inductive Numbers : List Char → List Int → Prop
  | single {ds : List Char} {i : Int} (h : Numeral ds i) : Numbers ds [i]
  | more {ds s line : List Char} {i : Int} {is : List Int} (h : Numeral ds i) (hs : Separators s)
      (hline : Numbers line is) : Numbers (ds ++ (s ++ line)) (i :: is)

/-- A line that starts with a header. -/
def Header (line : List Char) (vars announced : Nat) : Prop :=
  ∃ s₁ s₂ s₃ v a rest : List Char,
    line = ['p'] ++ (s₁ ++ (['c', 'n', 'f'] ++ (s₂ ++ (v ++ (s₃ ++ (a ++ rest)))))) ∧
    Separators s₁ ∧ Separators s₂ ∧ Separators s₃ ∧ Digits v vars ∧ vars < 2 ^ 64 ∧
    Digits a announced ∧ announced < 2 ^ 64 ∧ Stops Char.isDigit rest

/-! ## Characters -/

theorem not_isSeparator_of_isDigit (h : c.isDigit = true) : isSeparator c = false := by
  unfold isSeparator
  rw [Char.isDigit, Bool.and_eq_true, decide_eq_true_eq, decide_eq_true_eq] at h
  by_contra hsep
  simp only [Bool.not_eq_false, Bool.or_eq_true, beq_iff_eq] at hsep
  rcases hsep with ((rfl | rfl) | rfl) | rfl <;> exact absurd h (by decide)

theorem not_isDigit_of_isSeparator (h : isSeparator c = true) : c.isDigit = false := by
  by_contra hdigit
  rw [not_isSeparator_of_isDigit (by simpa using hdigit)] at h
  exact absurd h (by simp)

theorem Separators.stops (h : Separators s) : Stops Char.isDigit (s ++ rest) := by
  cases s with
  | nil => exact absurd rfl h.1
  | cons c s => exact .cons (not_isDigit_of_isSeparator (h.2 c List.mem_cons_self))

theorem Digits.stops (h : Digits ds n) : Stops isSeparator (ds ++ rest) := by
  cases ds with
  | nil => exact absurd rfl h.1
  | cons c ds => exact .cons (not_isSeparator_of_isDigit (h.2.1 c List.mem_cons_self))

theorem Numeral.stops (h : Numeral ds i) : Stops isSeparator (ds ++ rest) := by
  cases h with
  | unsigned h hn => exact h.stops
  | negated h hn => exact .cons (by decide)

theorem Numbers.stops (h : Numbers line is) : Stops isSeparator line := by
  cases h with
  | single h =>
    rw [← List.append_nil line]
    exact h.stops
  | more h hs hline => exact h.stops

theorem Numbers.ne_nil (h : Numbers line is) : line ≠ [] := by
  have hne : ∀ {ds i}, Numeral ds i → ds ≠ [] := by
    intro ds i hds
    cases hds with
    | unsigned h hn => exact h.1
    | negated h hn => exact List.cons_ne_nil _ _
  cases h with
  | single h => exact hne h
  | more h hs hline => exact List.append_ne_nil_of_left_ne_nil (hne h) _

/-! ## Single numbers -/

theorem valueOf_eq (ds : List Char) :
    valueOf ds = Nat.ofDigits 10 (ds.reverse.map fun c => c.toNat - '0'.toNat) := by
  induction ds using List.reverseRecOn with
  | nil => rfl
  | append_singleton ds c ih =>
    rw [valueOf, List.foldl_append, List.reverse_append, List.reverse_singleton,
      List.singleton_append, List.map_cons, Nat.ofDigits_cons, ← ih]
    exact Nat.add_comm _ _

theorem digits?_eq_some : digits? cs = some (n, rest) ↔
    ∃ ds, cs = ds ++ rest ∧ Digits ds n ∧ Stops Char.isDigit rest := by
  constructor
  · intro h
    unfold digits? at h
    dsimp only at h
    split at h
    · exact absurd h (by simp)
    · next hne =>
      obtain ⟨rfl, rfl⟩ := Prod.mk.inj (Option.some.inj h)
      exact ⟨_, List.takeWhile_append_dropWhile.symm, ⟨by simpa using hne,
        fun c => List.mem_takeWhile_imp, valueOf_eq _⟩, .dropWhile _ cs⟩
  · rintro ⟨ds, rfl, ⟨hne, hall, rfl⟩, hstops⟩
    unfold digits?
    rw [hstops.takeWhile_append hall, hstops.dropWhile_append hall, ← valueOf_eq]
    simp [hne]

theorem count?_eq_some : count? cs = some (n, rest) ↔
    ∃ ds, cs = ds ++ rest ∧ Digits ds n ∧ n < 2 ^ 64 ∧ Stops Char.isDigit rest := by
  constructor
  · intro h
    unfold count? at h
    split at h
    · next m rest' hdigits =>
      split at h
      · next hlt =>
        obtain ⟨rfl, rfl⟩ := Prod.mk.inj (Option.some.inj h)
        obtain ⟨ds, hcs, hds, hstops⟩ := digits?_eq_some.1 hdigits
        exact ⟨ds, hcs, hds, hlt, hstops⟩
      · exact absurd h (by simp)
    · exact absurd h (by simp)
  · rintro ⟨ds, hcs, hds, hlt, hstops⟩
    unfold count?
    rw [digits?_eq_some.2 ⟨ds, hcs, hds, hstops⟩]
    exact if_pos hlt

theorem separators?_eq_some : separators? cs = some rest ↔
    ∃ s, cs = s ++ rest ∧ Separators s ∧ Stops isSeparator rest := by
  cases cs with
  | nil =>
    refine iff_of_false (by simp [separators?]) ?_
    rintro ⟨s, hs, hsep, -⟩
    exact hsep.1 (List.append_eq_nil_iff.1 hs.symm).1
  | cons c cs =>
    rw [separators?]
    constructor
    · intro h
      split at h
      · next hc =>
        obtain rfl := Option.some.inj h
        refine ⟨c :: cs.takeWhile isSeparator, ?_, ⟨List.cons_ne_nil _ _, ?_⟩, .dropWhile _ cs⟩
        · rw [List.cons_append, skipSeparators, List.takeWhile_append_dropWhile]
        · exact List.forall_mem_cons.2 ⟨hc, fun d => List.mem_takeWhile_imp⟩
      · exact absurd h (by simp)
    · rintro ⟨s, hs, hsep, hstops⟩
      have hdrop := hstops.dropWhile_append hsep.2
      cases s with
      | nil => exact absurd rfl hsep.1
      | cons d s =>
        obtain ⟨rfl, rfl⟩ := List.cons.inj hs
        have hc := hsep.2 c List.mem_cons_self
        rw [List.cons_append, List.dropWhile_cons_of_pos hc] at hdrop
        rw [if_pos hc]
        exact congrArg some hdrop

theorem integer?_eq_some : integer? cs = some (i, rest) ↔
    ∃ ds, cs = ds ++ rest ∧ Numeral ds i ∧ Stops Char.isDigit rest := by
  constructor
  · intro h
    unfold integer? at h
    split at h
    · split at h
      · next n rest' hdigits =>
        split at h
        · next hle =>
          obtain ⟨rfl, rfl⟩ := Prod.mk.inj (Option.some.inj h)
          obtain ⟨ds, rfl, hds, hstops⟩ := digits?_eq_some.1 hdigits
          exact ⟨_, rfl, .negated hds hle, hstops⟩
        · exact absurd h (by simp)
      · exact absurd h (by simp)
    · split at h
      · next n rest' hdigits =>
        split at h
        · next hlt =>
          obtain ⟨rfl, rfl⟩ := Prod.mk.inj (Option.some.inj h)
          obtain ⟨ds, hcs, hds, hstops⟩ := digits?_eq_some.1 hdigits
          exact ⟨ds, hcs, .unsigned hds hlt, hstops⟩
        · exact absurd h (by simp)
      · exact absurd h (by simp)
  · rintro ⟨ds, rfl, hnum, hstops⟩
    cases hnum with
    | negated hds hle =>
      have hdigits := digits?_eq_some.2 ⟨_, rfl, hds, hstops⟩
      rw [List.cons_append, integer?]
      simp only [hdigits]
      exact if_pos hle
    | unsigned hds hlt =>
      have hdigits := digits?_eq_some.2 ⟨ds, rfl, hds, hstops⟩
      unfold integer?
      split
      · next ds' hcs =>
        -- a minus sign is no digit
        cases ds with
        | nil => exact absurd rfl hds.1
        | cons d ds =>
          obtain ⟨rfl, -⟩ := List.cons.inj hcs
          exact absurd (hds.2.1 _ List.mem_cons_self) (by decide)
      · simp only [hdigits]
        exact if_pos hlt

/-! ## Rows of numbers -/

theorem next_eq_some : (separators? cs).bind integer? = some (i, rest) ↔
    ∃ s ds, cs = s ++ (ds ++ rest) ∧ Separators s ∧ Numeral ds i ∧ Stops Char.isDigit rest := by
  rw [Option.bind_eq_some_iff]
  constructor
  · rintro ⟨line, hsep, hint⟩
    obtain ⟨s, rfl, hs, -⟩ := separators?_eq_some.1 hsep
    obtain ⟨ds, rfl, hds, hstops⟩ := integer?_eq_some.1 hint
    exact ⟨s, ds, rfl, hs, hds, hstops⟩
  · rintro ⟨s, ds, rfl, hs, hds, hstops⟩
    exact ⟨ds ++ rest, separators?_eq_some.2 ⟨s, rfl, hs, hds.stops⟩,
      integer?_eq_some.2 ⟨ds, rfl, hds, hstops⟩⟩

theorem moreIntegers_of_none (h : (separators? cs).bind integer? = none) :
    moreIntegers (fuel + 1) cs = ([], cs) := by
  rw [moreIntegers, h]

theorem moreIntegers_of_next {line : List Char}
    (h : (separators? cs).bind integer? = some (i, rest))
    (hmore : moreIntegers fuel rest = (is, line)) :
    moreIntegers (fuel + 1) cs = (i :: is, line) := by
  rw [moreIntegers, h]
  simp only [hmore]

theorem moreIntegers_nil (fuel : Nat) : moreIntegers fuel [] = ([], []) := by
  cases fuel <;> rfl

/-- If nothing is left unread, a row of numbers stood after separators. -/
theorem numbers_of_moreIntegers (h : moreIntegers fuel cs = (is, [])) :
    (cs = [] ∧ is = []) ∨ ∃ s line, cs = s ++ line ∧ Separators s ∧ Numbers line is := by
  induction fuel generalizing cs is with
  | zero =>
    obtain ⟨rfl, rfl⟩ := Prod.mk.inj h
    exact Or.inl ⟨rfl, rfl⟩
  | succ fuel ih =>
    cases hnext : (separators? cs).bind integer? with
    | none =>
      obtain ⟨rfl, rfl⟩ := Prod.mk.inj ((moreIntegers_of_none hnext).symm.trans h)
      exact Or.inl ⟨rfl, rfl⟩
    | some x =>
      obtain ⟨i, rest⟩ := x
      cases hmore : moreIntegers fuel rest with
      | mk js left =>
        rw [moreIntegers_of_next hnext hmore] at h
        obtain ⟨rfl, rfl⟩ := Prod.mk.inj h
        obtain ⟨s, ds, rfl, hs, hds, -⟩ := next_eq_some.1 hnext
        refine Or.inr ⟨s, ds ++ rest, rfl, hs, ?_⟩
        rcases ih hmore with ⟨rfl, rfl⟩ | ⟨s', line', rfl, hs', hline'⟩
        · rw [List.append_nil]
          exact .single hds
        · exact .more hds hs' hline'

/-- A row of numbers after separators is read to its end. -/
theorem Numbers.moreIntegers_eq (h : Numbers line is) (hs : Separators s)
    (hfuel : line.length ≤ fuel) : moreIntegers fuel (s ++ line) = (is, []) := by
  have hpos := List.length_pos_of_ne_nil h.ne_nil
  obtain ⟨fuel, rfl⟩ : ∃ m, fuel = m + 1 := ⟨fuel - 1, by omega⟩
  induction h generalizing s fuel with
  | @single ds i hds =>
    have hnext : (separators? (s ++ ds)).bind integer? = some (i, []) :=
      next_eq_some.2 ⟨s, ds, by rw [List.append_nil], hs, hds, .nil _⟩
    exact moreIntegers_of_next hnext (moreIntegers_nil fuel)
  | @more ds s' line i is hds hs' hline ih =>
    have hnext : (separators? (s ++ (ds ++ (s' ++ line)))).bind integer? = some (i, s' ++ line) :=
      next_eq_some.2 ⟨s, ds, rfl, hs, hds, hs'.stops⟩
    refine moreIntegers_of_next hnext ?_
    have hpos' := List.length_pos_of_ne_nil hline.ne_nil
    have hsep := List.length_pos_of_ne_nil hs'.1
    simp only [List.length_append] at hfuel
    obtain ⟨fuel, rfl⟩ : ∃ m, fuel = m + 1 := ⟨fuel - 1, by omega⟩
    exact ih hs' hpos' fuel (by omega)

theorem integers_of_first {line : List Char} {left : List Char} (hstops : Stops isSeparator line)
    (h : integer? line = some (i, rest)) (hmore : moreIntegers rest.length rest = (is, left)) :
    integers line = (i :: is, left) := by
  unfold integers
  simp only [skipSeparators, hstops.dropWhile_eq, h, hmore]

/-- The reader reads a line to its end if and only if the line is a row of numbers. -/
theorem integers_iff (hline : line ≠ []) (hstops : Stops isSeparator line) :
    integers line = (is, []) ↔ Numbers line is := by
  constructor
  · intro h
    cases hfirst : integer? line with
    | none =>
      unfold integers at h
      simp only [skipSeparators, hstops.dropWhile_eq, hfirst] at h
      exact absurd (Prod.mk.inj h).2 hline
    | some x =>
      obtain ⟨i, rest⟩ := x
      cases hmore : moreIntegers rest.length rest with
      | mk js left =>
        rw [integers_of_first hstops hfirst hmore] at h
        obtain ⟨rfl, rfl⟩ := Prod.mk.inj h
        obtain ⟨ds, rfl, hds, -⟩ := integer?_eq_some.1 hfirst
        rcases numbers_of_moreIntegers hmore with ⟨rfl, rfl⟩ | ⟨s', line', rfl, hs', hline'⟩
        · rw [List.append_nil]
          exact .single hds
        · exact .more hds hs' hline'
  · intro h
    cases h with
    | @single _ i hds =>
      have hfirst : integer? line = some (i, []) :=
        integer?_eq_some.2 ⟨line, (List.append_nil line).symm, hds, .nil _⟩
      exact integers_of_first hstops hfirst (moreIntegers_nil _)
    | @more ds s' line' i is hds hs' hline' =>
      have hfirst : integer? (ds ++ (s' ++ line')) = some (i, s' ++ line') :=
        integer?_eq_some.2 ⟨ds, rfl, hds, hs'.stops⟩
      exact integers_of_first hstops hfirst
        (hline'.moreIntegers_eq hs' (by rw [List.length_append]; omega))

theorem moreIntegers_suffix (h : moreIntegers fuel cs = (is, rest)) : rest <:+ cs := by
  induction fuel generalizing cs is with
  | zero =>
    obtain ⟨-, rfl⟩ := Prod.mk.inj h
    exact List.suffix_rfl
  | succ fuel ih =>
    cases hnext : (separators? cs).bind integer? with
    | none =>
      obtain ⟨-, rfl⟩ := Prod.mk.inj ((moreIntegers_of_none hnext).symm.trans h)
      exact List.suffix_rfl
    | some x =>
      obtain ⟨i, line⟩ := x
      cases hmore : moreIntegers fuel line with
      | mk js left =>
        obtain ⟨-, rfl⟩ := Prod.mk.inj ((moreIntegers_of_next hnext hmore).symm.trans h)
        obtain ⟨s, ds, rfl, -⟩ := next_eq_some.1 hnext
        rw [← List.append_assoc]
        exact (ih hmore).trans (List.suffix_append _ _)

/-- What is left unread is the end of the line. -/
theorem integers_suffix (line : List Char) : (integers line).2 <:+ line := by
  have hstart : skipSeparators line <:+ line := List.dropWhile_suffix isSeparator
  unfold integers
  dsimp only
  split
  · next i rest hfirst =>
    obtain ⟨ds, hds, -⟩ := integer?_eq_some.1 hfirst
    rw [hds] at hstart
    exact (moreIntegers_suffix rfl).trans ((List.suffix_append ds rest).trans hstart)
  · exact hstart

/-! ## Headers -/

theorem expect?_eq_some {keyword : List Char} :
    expect? keyword cs = some rest ↔ cs = keyword ++ rest := by
  induction keyword generalizing cs with
  | nil => simp [expect?]
  | cons k ks ih =>
    cases cs with
    | nil => simp [expect?]
    | cons c cs =>
      rw [expect?]
      split
      · next hk => rw [ih, hk, List.cons_append, List.cons_inj_right]
      · next hk =>
        refine iff_of_false (by simp) fun h => hk (List.cons.inj h).1.symm

/-- A line that does not start with a separator starts with a header if and only if one is read. -/
theorem header?_eq_some {announced : Nat} (hstops : Stops isSeparator line) :
    header? line = some (vars, announced) ↔ Header line vars announced := by
  have hstart : skipSeparators line = line := hstops.dropWhile_eq
  simp only [header?, hstart, Option.bind_eq_bind, Option.bind_eq_some_iff, expect?_eq_some,
    separators?_eq_some, count?_eq_some, Prod.exists, Option.some.injEq, Prod.mk.injEq]
  constructor
  · rintro ⟨_, rfl, _, ⟨s₁, rfl, hs₁, -⟩, _, rfl, _, ⟨s₂, rfl, hs₂, -⟩, _, _,
      ⟨v, rfl, hv, hvars, -⟩, _, ⟨s₃, rfl, hs₃, -⟩, _, rest, ⟨a, rfl, ha, hlt, hrest⟩, rfl, rfl⟩
    exact ⟨s₁, s₂, s₃, v, a, rest, rfl, hs₁, hs₂, hs₃, hv, hvars, ha, hlt, hrest⟩
  · rintro ⟨s₁, s₂, s₃, v, a, rest, rfl, hs₁, hs₂, hs₃, hv, hvars, ha, hlt, hrest⟩
    exact ⟨_, rfl, _, ⟨s₁, rfl, hs₁, .cons (by decide)⟩, _, rfl, _, ⟨s₂, rfl, hs₂, hv.stops⟩, _, _,
      ⟨v, rfl, hv, hvars, hs₃.stops⟩, _, ⟨s₃, rfl, hs₃, ha.stops⟩, _, rest,
      ⟨a, rfl, ha, hlt, hrest⟩, rfl, rfl⟩

end Cdcl.Dimacs
