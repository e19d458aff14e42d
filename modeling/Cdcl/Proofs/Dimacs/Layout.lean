import Mathlib.Data.List.Forall2
import Mathlib.Data.List.TakeWhile
import Cdcl.Dimacs

/-!
# The lines of a text

`Layout` says which lines of a text count: the pieces between line feeds are freed from blanks at
both ends, and those that are empty or comments are left out. Every text has one layout, and
`effectiveLines` finds it (`layout_iff`).
-/

namespace Cdcl
set_option autoImplicit false

/-! ## Runs of characters -/

/-- A list does not go on with an element that satisfies the predicate. -/
def Stops {α : Type} (p : α → Bool) (xs : List α) : Prop := ∀ x ∈ xs.head?, p x = false

namespace Stops

variable {α : Type} {p : α → Bool} {xs ys : List α} {x : α}

theorem nil (p : α → Bool) : Stops p [] := by simp [Stops]

theorem cons (h : p x = false) : Stops p (x :: xs) := by simpa [Stops] using h

theorem dropWhile (p : α → Bool) (xs : List α) : Stops p (xs.dropWhile p) := by
  intro x hx
  have hnot := List.head?_dropWhile_not p xs
  rw [Option.mem_def.1 hx] at hnot
  exact hnot

theorem dropWhile_eq (h : Stops p xs) : xs.dropWhile p = xs := by
  cases xs with
  | nil => rfl
  | cons x xs =>
    have hx : p x = false := h x rfl
    rw [List.dropWhile_cons_of_neg (by simp [hx])]

theorem takeWhile_eq (h : Stops p xs) : xs.takeWhile p = [] := by
  cases xs with
  | nil => rfl
  | cons x xs =>
    have hx : p x = false := h x rfl
    rw [List.takeWhile_cons_of_neg (by simp [hx])]

/-- What is dropped from a run that has stopped is the run. -/
theorem dropWhile_append (hall : ∀ y ∈ ys, p y = true) (h : Stops p xs) :
    (ys ++ xs).dropWhile p = xs := by
  rw [List.dropWhile_append_of_pos hall, h.dropWhile_eq]

theorem takeWhile_append (hall : ∀ y ∈ ys, p y = true) (h : Stops p xs) :
    (ys ++ xs).takeWhile p = ys := by
  rw [List.takeWhile_append_of_pos hall, h.takeWhile_eq, List.append_nil]

end Stops

/-! ## Trimming -/

namespace Text

variable {line core : List Char}

/-- The core is the line without the blank characters at its ends. -/
structure Trims (line core : List Char) : Prop where
  split : ∃ before after, line = before ++ core ++ after ∧ (∀ c ∈ before, isBlank c = true) ∧
    ∀ c ∈ after, isBlank c = true
  first : ∀ c ∈ core.head?, isBlank c = false
  last : ∀ c ∈ core.getLast?, isBlank c = false

theorem trims_trim (line : List Char) : Trims line (trim line) := by
  have hstart := List.takeWhile_append_dropWhile (p := isBlank) (l := line)
  have hend :=
    List.takeWhile_append_dropWhile (p := isBlank) (l := (line.dropWhile isBlank).reverse)
  have hrest : line.dropWhile isBlank =
      trim line ++ ((line.dropWhile isBlank).reverse.takeWhile isBlank).reverse := by
    have hreverse := congrArg List.reverse hend
    rwa [List.reverse_append, List.reverse_reverse, eq_comm] at hreverse
  refine ⟨⟨line.takeWhile isBlank, ((line.dropWhile isBlank).reverse.takeWhile isBlank).reverse, ?_,
    fun c => List.mem_takeWhile_imp, fun c hc => ?_⟩, fun c hc => ?_, fun c hc => ?_⟩
  · rw [List.append_assoc, ← hrest, hstart]
  · exact List.mem_takeWhile_imp (List.mem_reverse.1 hc)
  · refine Stops.dropWhile isBlank line c ?_
    rw [hrest, Option.mem_def, List.head?_append, Option.mem_def.1 hc, Option.some_or]
  · rw [trim, List.getLast?_reverse] at hc
    exact Stops.dropWhile isBlank _ c hc

theorem trim_eq_nil_iff : trim line = [] ↔ ∀ c ∈ line, isBlank c = true := by
  unfold trim
  rw [List.reverse_eq_nil_iff, List.dropWhile_eq_nil_iff]
  simp only [List.mem_reverse]
  constructor
  · intro h c hc
    rw [← List.takeWhile_append_dropWhile (p := isBlank) (l := line), List.mem_append] at hc
    exact hc.elim List.mem_takeWhile_imp (h c)
  · exact fun h c hc => h c ((List.dropWhile_sublist isBlank).mem hc)

theorem Trims.eq_trim (h : Trims line core) : core = trim line := by
  obtain ⟨before, after, rfl, hbefore, hafter⟩ := h.split
  cases hcore : core with
  | nil =>
    refine (trim_eq_nil_iff.2 fun c hc => ?_).symm
    rw [List.append_nil, List.mem_append] at hc
    exact hc.elim (hbefore c) (hafter c)
  | cons c cs =>
    have hfirst : Stops isBlank (core ++ after) := by
      rw [hcore]
      exact Stops.cons (h.first c (hcore ▸ rfl))
    have hlast : Stops isBlank core.reverse := by
      intro x hx
      rw [List.head?_reverse] at hx
      exact h.last x hx
    unfold trim
    rw [← hcore, List.append_assoc, hfirst.dropWhile_append hbefore, List.reverse_append,
      hlast.dropWhile_append fun x hx => hafter x (List.mem_reverse.1 hx), List.reverse_reverse]

end Text

/-! ## Layouts -/

namespace Dimacs

variable {text : List Char} {found : List (List Char)}

/-- The lines that count: a text is cut at its line feeds, each piece is freed from blanks at both
ends, and what is empty then or starts with a `c` is left out. -/
def Layout (text : List Char) (found : List (List Char)) : Prop :=
  ∃ pieces cores : List (List Char), pieces ≠ [] ∧ ['\n'].intercalate pieces = text ∧
    (∀ piece ∈ pieces, '\n' ∉ piece) ∧ List.Forall₂ Text.Trims pieces cores ∧
    found = cores.filter fun core => core ≠ [] ∧ core.head? ≠ some 'c'

theorem lines_eq (text : List Char) : lines text = text.splitOn '\n' := by
  induction text with
  | nil => rfl
  | cons c cs ih =>
    rw [List.splitOn_cons_eq_if_modifyHead, ← ih, lines]
    by_cases hc : c = '\n'
    · simp [hc]
    · cases hl : lines cs with
      | nil => exact absurd (ih.symm.trans hl) (List.splitOn_ne_nil _ _)
      | cons l ls => simp [hc]

/-- No piece holds the place at which the list was cut. -/
theorem not_mem_of_mem_splitOn {α : Type} [BEq α] [LawfulBEq α] {a : α} {xs piece : List α}
    (h : piece ∈ xs.splitOn a) : a ∉ piece := by
  induction xs generalizing piece with
  | nil =>
    rw [List.splitOn_nil, List.mem_singleton] at h
    simp [h]
  | cons x xs ih =>
    obtain ⟨l, ls, hsplit⟩ := List.exists_cons_of_ne_nil (List.splitOn_ne_nil a xs)
    rw [List.splitOn_cons_eq_if_modifyHead, hsplit] at h
    rw [hsplit] at ih
    split at h
    · rcases List.mem_cons.1 h with rfl | h
      · exact List.not_mem_nil
      · exact ih h
    · next hx =>
      rcases List.mem_cons.1 h with rfl | h
      · rw [List.mem_cons, not_or]
        exact ⟨fun heq => hx (by simp [heq]), ih List.mem_cons_self⟩
      · exact ih (List.mem_cons_of_mem l h)

theorem isEffective_eq (line : List Char) :
    isEffective line = decide (line ≠ [] ∧ line.head? ≠ some 'c') := by
  cases line with
  | nil => rfl
  | cons c cs =>
    rw [isEffective, Bool.eq_iff_iff]
    simp

theorem effectiveLines_eq (text : List Char) : effectiveLines text =
    ((text.splitOn '\n').map Text.trim).filter
      fun core => core ≠ [] ∧ core.head? ≠ some 'c' := by
  rw [effectiveLines, lines_eq]
  exact List.filter_congr fun line _ => isEffective_eq line

/-- Every text has one layout. -/
theorem layout_iff : Layout text found ↔ found = effectiveLines text := by
  have htrim : ∀ pieces cores, List.Forall₂ Text.Trims pieces cores ↔
      cores = pieces.map Text.trim := by
    intro pieces cores
    rw [eq_comm, ← List.forall₂_eq_eq_eq, List.forall₂_map_left_iff]
    exact ⟨fun h => h.imp fun _ _ ht => ht.eq_trim.symm,
      fun h => h.imp fun piece _ ht => ht ▸ Text.trims_trim piece⟩
  rw [effectiveLines_eq]
  constructor
  · rintro ⟨pieces, cores, hne, rfl, hpieces, htrims, rfl⟩
    rw [List.splitOn_intercalate _ hpieces hne, (htrim _ _).1 htrims]
  · rintro rfl
    exact ⟨text.splitOn '\n', _, List.splitOn_ne_nil _ _, List.intercalate_splitOn _,
      fun piece => not_mem_of_mem_splitOn, (htrim _ _).2 rfl, rfl⟩

end Dimacs
end Cdcl
