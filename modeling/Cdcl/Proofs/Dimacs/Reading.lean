import Cdcl.Proofs.Dimacs.Numbers

/-!
# What the reader accepts

A text spells out a formula if its first line starts with a header and its other lines, up to one
that starts with a `%`, are rows of numbers (`Spells`). Only the header and the sequence of the
numbers matter to the reader (`read_of_spells`). It accepts a text if and only if the text spells
out a sequence that fits the variables and ends with a zero, and gives this sequence cut at its
zeros (`read_exact`). It gives a formula or an error unless the header announces more clauses than
can be addressed (`read_faults_iff`).
-/

namespace Cdcl.Dimacs
set_option autoImplicit false

variable {text line : List Char} {lines : List (List Char)} {vars announced : Nat}
  {is ns rest : List Int} {cs : List (List Int)} {rows : List (List Int)}

/-- The text is laid out as a line that starts with a header and rows of numbers up to a line that
starts with a `%`, or to the end. -/
def Spells (text : String) (vars announced : Nat) (ns : List Int) : Prop :=
  ∃ first later rows, Layout text.toList (first :: later) ∧ Header first vars announced ∧
    List.Forall₂ Numbers (later.takeWhile fun line => line.head? ≠ some '%') rows ∧
    ns = rows.flatten

/-! ## Lines that count -/

/-- A line without blanks at its ends that is not empty. -/
structure Plain (line : List Char) : Prop where
  ne_nil : line ≠ []
  stops : Stops isSeparator line
  last : ∀ c ∈ line.getLast?, Text.isBlank c = false

theorem isBlank_of_isSeparator {c : Char} (h : isSeparator c = true) : Text.isBlank c = true := by
  unfold isSeparator at h
  simp only [Bool.or_eq_true, beq_iff_eq] at h
  rcases h with ((rfl | rfl) | rfl) | rfl <;> decide

theorem plain_of_mem (h : line ∈ effectiveLines text) : Plain line := by
  rw [effectiveLines_eq, List.mem_filter, List.mem_map, decide_eq_true_eq] at h
  obtain ⟨⟨piece, -, rfl⟩, hne, -⟩ := h
  have htrims := Text.trims_trim piece
  refine ⟨hne, fun c hc => ?_, htrims.last⟩
  by_contra hsep
  have hblank := isBlank_of_isSeparator (by simpa using hsep)
  rw [htrims.first c hc] at hblank
  exact absurd hblank (by simp)

/-- The numbers, or the first of them that names no variable. -/
def checked (vars : Nat) (is : List Int) : Except ReadError (List Int) :=
  match is.find? fun i => vars < i.natAbs with
  | some i => .error (.literalTooLarge i vars)
  | none => .ok is

theorem checked_eq_ok : checked vars is = .ok ns ↔ ns = is ∧ ∀ i ∈ is, i.natAbs ≤ vars := by
  unfold checked
  split
  · next i hfind =>
    refine iff_of_false (by simp) fun h => ?_
    have hlarge := List.find?_some hfind
    exact absurd (h.2 i (List.mem_of_find?_eq_some hfind)) (by simpa using hlarge)
  · next hfind =>
    have hall := List.find?_eq_none.1 hfind
    simp only [decide_eq_true_eq, Nat.not_lt] at hall
    rw [Except.ok.injEq, eq_comm]
    exact (and_iff_left hall).symm

theorem clauseLine_of_numbers (h : Numbers line is) : clauseLine vars line = checked vars is := by
  unfold clauseLine
  simp only [(integers_iff h.ne_nil h.stops).2 h]
  rfl

/-- A row is read completely or not at all. -/
theorem numbers_of_clauseLine (hline : Plain line) (h : clauseLine vars line = .ok is) :
    Numbers line is := by
  unfold clauseLine at h
  dsimp only at h
  split at h
  · next hempty =>
    obtain ⟨rfl, -⟩ := checked_eq_ok.1 h
    refine (integers_iff hline.ne_nil hline.stops).1 (Prod.ext rfl ?_)
    -- what is left ends like the line, which does not end with a blank
    by_contra hne
    have hblank := Text.trim_eq_nil_iff.1 (List.isEmpty_iff.1 hempty)
    obtain ⟨read, hread⟩ := integers_suffix line
    have hlast := List.getLast?_append_of_ne_nil read hne
    rw [hread, List.getLast?_eq_getLast_of_ne_nil hne] at hlast
    have hno := hline.last _ hlast
    rw [hblank _ (List.getLast_mem hne)] at hno
    exact absurd hno (by simp)
  · exact absurd h (by simp)

theorem clauseLines_of_rows (h : List.Forall₂ Numbers lines rows) :
    clauseLines vars lines = checked vars rows.flatten := by
  induction h with
  | nil => rfl
  | @cons line is lines rows hline hrows ih =>
    rw [clauseLines, clauseLine_of_numbers hline, ih, List.flatten_cons]
    unfold checked
    rw [List.find?_append]
    cases is.find? _ <;> cases rows.flatten.find? _ <;> rfl

theorem rows_of_clauseLines (hlines : ∀ line ∈ lines, Plain line)
    (h : clauseLines vars lines = .ok ns) :
    ∃ rows, List.Forall₂ Numbers lines rows ∧ ns = rows.flatten := by
  induction lines generalizing ns with
  | nil =>
    obtain rfl := Except.ok.inj h
    exact ⟨[], .nil, rfl⟩
  | cons line lines ih =>
    obtain ⟨hline, hlines⟩ := List.forall_mem_cons.1 hlines
    rw [clauseLines] at h
    cases his : clauseLine vars line with
    | error e => exact absurd (his ▸ h) (by simp [bind, Except.bind])
    | ok is =>
      cases hrest : clauseLines vars lines with
      | error e => exact absurd (hrest ▸ his ▸ h) (by simp [bind, Except.bind])
      | ok others =>
        rw [his, hrest] at h
        obtain rfl := Except.ok.inj h
        obtain ⟨rows, hrows, rfl⟩ := ih hlines hrest
        exact ⟨is :: rows, .cons (numbers_of_clauseLine hline his) hrows, rfl⟩

/-! ## Cutting at zeros -/

theorem splitAtZeros_eq (h : splitAtZeros is = (cs, rest)) :
    is = cs.flatMap (· ++ [0]) ++ rest ∧ (0 : Int) ∉ rest ∧ ∀ c ∈ cs, (0 : Int) ∉ c := by
  induction is generalizing cs rest with
  | nil =>
    obtain ⟨rfl, rfl⟩ := Prod.mk.inj h
    simp
  | cons i is ih =>
    rcases hsplit : splitAtZeros is with ⟨cs', rest'⟩
    obtain ⟨rfl, hrest, hcs⟩ := ih hsplit
    rw [splitAtZeros, hsplit] at h
    dsimp only at h
    by_cases hi : i = 0
    · rw [if_pos hi] at h
      obtain ⟨rfl, rfl⟩ := Prod.mk.inj h
      exact ⟨by simp [hi], hrest, List.forall_mem_cons.2 ⟨List.not_mem_nil, hcs⟩⟩
    · rw [if_neg hi] at h
      cases cs' with
      | nil =>
        obtain ⟨rfl, rfl⟩ := Prod.mk.inj h
        exact ⟨rfl, by simpa [Ne.symm hi] using hrest, by simp⟩
      | cons c cs' =>
        obtain ⟨rfl, rfl⟩ := Prod.mk.inj h
        obtain ⟨hc, hcs⟩ := List.forall_mem_cons.1 hcs
        refine ⟨by simp, hrest, List.forall_mem_cons.2 ⟨?_, hcs⟩⟩
        simpa [Ne.symm hi] using hc

theorem splitOn_flatMap (hcs : ∀ c ∈ cs, (0 : Int) ∉ c) (hrest : (0 : Int) ∉ rest) :
    (cs.flatMap (· ++ [0]) ++ rest).splitOn 0 = cs ++ [rest] := by
  induction cs with
  | nil => exact List.splitOn_eq_singleton hrest
  | cons c cs ih =>
    obtain ⟨hc, hcs⟩ := List.forall_mem_cons.1 hcs
    rw [List.flatMap_cons, List.append_assoc, List.append_assoc, List.singleton_append,
      List.splitOn_append_cons_self_of_not_mem hc, ih hcs, List.cons_append]

/-- The numbers before the last zero are cut at the zeros, and nothing may follow that zero. -/
theorem splitAtZeros_cases (is : List Int) :
    (∃ cs, splitAtZeros is = (cs, []) ∧ (is = [] ∨ is.getLast? = some 0) ∧
      cs = (is.splitOn 0).dropLast) ∨
    ∃ cs i rest, splitAtZeros is = (cs, i :: rest) ∧ ¬ (is = [] ∨ is.getLast? = some 0) := by
  rcases hsplit : splitAtZeros is with ⟨cs, rest⟩
  obtain ⟨rfl, hrest, hcs⟩ := splitAtZeros_eq hsplit
  cases rest with
  | nil =>
    refine Or.inl ⟨cs, rfl, ?_, ?_⟩
    · rcases List.eq_nil_or_concat cs with rfl | ⟨cs, c, rfl⟩
      · exact Or.inl rfl
      · right
        simp
    · rw [splitOn_flatMap hcs hrest, List.dropLast_concat]
  | cons i rest =>
    refine Or.inr ⟨cs, i, rest, rfl, ?_⟩
    rw [List.getLast?_append_of_ne_nil _ (List.cons_ne_nil i rest)]
    rintro (hnil | hlast)
    · exact absurd (List.append_eq_nil_iff.1 hnil).2 (List.cons_ne_nil i rest)
    · exact hrest (List.mem_of_getLast? hlast)

/-! ## Whole texts -/

/-- What becomes of a header and the numbers that follow it. -/
def outcome (vars announced : Nat) (ns : List Int) : Except ReadError Formula := do
  let ns ← checked vars ns
  if ns = [] ∨ ns.getLast? = some 0 then .ok ⟨vars, announced, (ns.splitOn 0).dropLast⟩
  else .error .unterminated

theorem outcome_eq_ok {f : Formula} : outcome vars announced ns = .ok f ↔
    (∀ i ∈ ns, i.natAbs ≤ vars) ∧ (ns = [] ∨ ns.getLast? = some 0) ∧
      f = ⟨vars, announced, (ns.splitOn 0).dropLast⟩ := by
  unfold outcome
  cases hchecked : checked vars ns with
  | error e =>
    refine iff_of_false (by simp [bind, Except.bind]) fun h => ?_
    exact absurd (hchecked.symm.trans (checked_eq_ok.2 ⟨rfl, h.1⟩)) (by simp)
  | ok is =>
    obtain ⟨rfl, hall⟩ := checked_eq_ok.1 hchecked
    rw [and_iff_right hall]
    dsimp only [bind, Except.bind]
    split
    · next hend => rw [and_iff_right hend, Except.ok.injEq, eq_comm]
    · next hend => exact iff_of_false (by simp) fun h => hend h.1

theorem body_eq (later : List (List Char)) :
    later.takeWhile (!endsFormula ·) = later.takeWhile fun line => line.head? ≠ some '%' := by
  congr 1
  funext line
  rw [endsFormula, Bool.eq_iff_iff]
  simp

/-- What becomes of the lines after the header only depends on their numbers. -/
theorem clauses_of_rows {later : List (List Char)}
    (h : List.Forall₂ Numbers (later.takeWhile fun line => line.head? ≠ some '%') rows) :
    (clauses vars later).map (Formula.mk vars announced) =
      outcome vars announced rows.flatten := by
  unfold clauses outcome
  rw [body_eq, clauseLines_of_rows h]
  cases hchecked : checked vars rows.flatten with
  | error e => rfl
  | ok ns =>
    dsimp only [bind, Except.bind]
    rcases splitAtZeros_cases ns with ⟨cs, hsplit, hend, rfl⟩ | ⟨cs, i, rest, hsplit, hend⟩
    · rw [hsplit, if_pos hend]
      rfl
    · rw [hsplit, if_neg hend]
      rfl

theorem rows_of_clauses {later : List (List Char)} (hlater : ∀ line ∈ later, Plain line)
    (h : clauses vars later = .ok cs) :
    ∃ rows, List.Forall₂ Numbers (later.takeWhile fun line => line.head? ≠ some '%') rows := by
  unfold clauses at h
  rw [body_eq] at h
  cases hlines : clauseLines vars (later.takeWhile fun line => line.head? ≠ some '%') with
  | error e => exact absurd (hlines ▸ h) (by simp [bind, Except.bind])
  | ok ns =>
    have hplain : ∀ line ∈ later.takeWhile fun line => line.head? ≠ some '%', Plain line :=
      fun line hline => hlater line ((List.takeWhile_sublist _).mem hline)
    obtain ⟨rows, hrows, -⟩ := rows_of_clauseLines hplain hlines
    exact ⟨rows, hrows⟩

theorem read_of_header {text : String} {first : List Char} {later : List (List Char)}
    (hlayout : Layout text.toList (first :: later)) (hheader : Header first vars announced) :
    read text = (do
      Word.reserve announced clauseWidth
      .ok ((clauses vars later).map (Formula.mk vars announced))) := by
  have hlines := layout_iff.1 hlayout
  have hplain : Plain first := plain_of_mem (hlines ▸ List.mem_cons_self)
  unfold read
  rw [← hlines]
  dsimp only
  rw [(header?_eq_some hplain.stops).2 hheader]
  dsimp only
  cases clauses vars later <;> rfl

/-- The reader only looks at the header and the sequence of the numbers. -/
theorem read_of_spells {text : String} (h : Spells text vars announced ns) :
    read text = (do
      Word.reserve announced clauseWidth
      .ok (outcome vars announced ns)) := by
  obtain ⟨first, later, rows, hlayout, hheader, hrows, rfl⟩ := h
  rw [read_of_header hlayout hheader, clauses_of_rows hrows]

theorem spells_of_read {text : String} {f : Formula} (h : read text = .ok (.ok f)) :
    ∃ ns, Spells text f.vars f.announced ns := by
  unfold read at h
  split at h
  · exact absurd h (by simp)
  · next first later hlines =>
    have hlayout : Layout text.toList (first :: later) := layout_iff.2 hlines.symm
    have hplain : ∀ line ∈ first :: later, Plain line := fun line hline =>
      plain_of_mem (hlines ▸ hline)
    split at h
    · exact absurd h (by simp)
    · next vars announced hheader =>
      obtain ⟨_, -, h⟩ := bind_eq_ok_iff.1 h
      have h := Except.ok.inj h
      split at h
      · exact absurd h (by simp)
      · next cs hcs =>
        obtain rfl := Except.ok.inj h
        obtain ⟨rows, hrows⟩ :=
          rows_of_clauses (fun line hline => hplain line (List.mem_cons_of_mem _ hline)) hcs
        exact ⟨_, first, later, rows, hlayout,
          (header?_eq_some (hplain first List.mem_cons_self).stops).1 hheader, hrows, rfl⟩

/-- Room can be made for as many clauses as the header announces, if there is a header. -/
def Reservable (text : String) : Prop :=
  ∀ first later vars announced, Layout text.toList (first :: later) →
    Header first vars announced → announced * clauseWidth < Word.addressable

theorem read_of_reservable {text : String} (h : Reservable text) : ∃ r, read text = .ok r := by
  cases hlines : effectiveLines text.toList with
  | nil =>
    unfold read
    rw [hlines]
    exact ⟨_, rfl⟩
  | cons first later =>
    have hlayout : Layout text.toList (first :: later) := layout_iff.2 hlines.symm
    have hplain : Plain first := plain_of_mem (hlines ▸ List.mem_cons_self)
    cases hheader : header? first with
    | none =>
      unfold read
      rw [hlines]
      dsimp only
      rw [hheader]
      exact ⟨_, rfl⟩
    | some x =>
      obtain ⟨vars, announced⟩ := x
      have hheader' := (header?_eq_some hplain.stops).1 hheader
      have hroom : Word.reserve announced clauseWidth = .ok () :=
        require_eq_ok_iff.2 (by simpa using h first later vars announced hlayout hheader')
      rw [read_of_header hlayout hheader', hroom]
      exact ⟨_, rfl⟩

theorem not_reservable_iff {text : String} : ¬ Reservable text ↔
    ∃ first later vars announced, Layout text.toList (first :: later) ∧
      Header first vars announced ∧ Word.addressable ≤ announced * clauseWidth := by
  simp [Reservable]

theorem read_of_not_reservable {text : String} (h : ¬ Reservable text) :
    read text = .error .capacityOverflow := by
  obtain ⟨first, later, vars, announced, hlayout, hheader, hlarge⟩ := not_reservable_iff.1 h
  have hfull : Word.reserve announced clauseWidth = .error .capacityOverflow := by
    rw [Word.reserve, decide_eq_false (Nat.not_lt.2 hlarge)]
    rfl
  rw [read_of_header hlayout hheader, hfull]
  rfl

/-- A text whose announced clauses fit into memory is accepted if and only if it spells out a header
and a sequence of numbers that names no variable beyond the header's and is empty or ends with a
zero. The clauses are the sequence cut at its zeros. Any other text is refused with an error. How the
numbers are laid out makes no difference. -/
theorem read_exact {text : String} (hroom : Reservable text) :
    (∀ f, read text = .ok (.ok f) ↔ ∃ ns, Spells text f.vars f.announced ns ∧
      (∀ i ∈ ns, i.natAbs ≤ f.vars) ∧ (ns = [] ∨ ns.getLast? = some 0) ∧
      f.clauses = (ns.splitOn 0).dropLast) ∧
    ((∃ f, read text = .ok (.ok f)) ∨ ∃ e, read text = .ok (.error e)) ∧
    (∀ text' vars announced ns, Spells text vars announced ns → Spells text' vars announced ns →
      read text' = read text) := by
  obtain ⟨r, hr⟩ := read_of_reservable hroom
  have houtcome : ∀ {vars announced ns}, Spells text vars announced ns →
      r = outcome vars announced ns := by
    intro vars announced ns h
    obtain ⟨_, -, hr⟩ := bind_eq_ok_iff.1 ((read_of_spells h).symm.trans hr)
    exact (Except.ok.inj hr).symm
  refine ⟨fun f => ⟨fun hf => ?_, ?_⟩, ?_, fun text' vars announced ns h h' => ?_⟩
  · obtain ⟨ns, h⟩ := spells_of_read hf
    obtain rfl := Except.ok.inj (hr.symm.trans hf)
    obtain ⟨hall, hend, hf⟩ := outcome_eq_ok.1 (houtcome h).symm
    exact ⟨ns, h, hall, hend, congrArg Formula.clauses hf⟩
  · rintro ⟨ns, h, hall, hend, hclauses⟩
    rw [hr, houtcome h, outcome_eq_ok.2 ⟨hall, hend, rfl⟩, ← hclauses]
  · cases r with
    | ok f => exact Or.inl ⟨f, hr⟩
    | error e => exact Or.inr ⟨e, hr⟩
  · rw [read_of_spells h, read_of_spells h']

/-- A text whose lines and numbers are out of step, with a comment and something after the end. -/
def spread : String := "c two clauses\np cnf 3 2\n 1 -2\n0 2\t3 0\n%\nend"

theorem reservable_spread : Reservable spread := by
  intro first later vars announced hlayout hheader
  have hlines : first :: later = ["p cnf 3 2".toList, "1 -2".toList, "0 2\t3 0".toList, "%".toList,
      "end".toList] := (layout_iff.1 hlayout).trans (by decide +kernel)
  obtain ⟨rfl, -⟩ := List.cons.inj hlines
  have hread := (header?_eq_some (.cons (by decide))).2 hheader
  have hplain : header? "p cnf 3 2".toList = some (3, 2) := by decide +kernel
  obtain ⟨-, rfl⟩ : 3 = vars ∧ 2 = announced :=
    Prod.mk.inj (Option.some.inj (hplain.symm.trans hread))
  decide

theorem read_exact_spread : Reservable spread ∧ Spells spread 3 2 [1, -2, 0, 2, 3, 0] ∧
    read spread = .ok (.ok ⟨3, 2, [[1, -2], [2, 3]]⟩) := by
  have hspells : Spells spread 3 2 [1, -2, 0, 2, 3, 0] := by
    refine ⟨"p cnf 3 2".toList, ["1 -2".toList, "0 2\t3 0".toList, "%".toList, "end".toList],
      [[1, -2], [0, 2, 3, 0]], layout_iff.2 (by decide +kernel),
      (header?_eq_some (.cons (by decide))).1 (by decide +kernel), ?_, rfl⟩
    exact .cons ((integers_iff (by decide) (.cons (by decide))).1 (by decide +kernel))
      (.cons ((integers_iff (by decide) (.cons (by decide))).1 (by decide +kernel)) .nil)
  exact ⟨reservable_spread, hspells, ((read_exact reservable_spread).1 _).2
    ⟨_, hspells, by decide, Or.inr rfl, by decide⟩⟩

/-- The reader gives a formula or an error for every text but those whose header announces more
clauses than can be addressed; there it stops with this fault, whatever follows the header, and there
is no other fault. -/
theorem read_faults_iff (text : String) :
    (∀ fault, read text = .error fault ↔ fault = .capacityOverflow ∧
      ∃ first later vars announced, Layout text.toList (first :: later) ∧
        Header first vars announced ∧ Word.addressable ≤ announced * clauseWidth) ∧
    (((∃ f, read text = .ok (.ok f)) ∨ ∃ e, read text = .ok (.error e)) ↔
      ∀ first later vars announced, Layout text.toList (first :: later) →
        Header first vars announced → announced * clauseWidth < Word.addressable) := by
  rw [← Reservable, ← not_reservable_iff]
  by_cases h : Reservable text
  · obtain ⟨r, hr⟩ := read_of_reservable h
    refine ⟨fun fault => iff_of_false (by simp [hr]) fun hfault => hfault.2 h, iff_of_true ?_ h⟩
    cases r with
    | ok f => exact Or.inl ⟨f, hr⟩
    | error e => exact Or.inr ⟨e, hr⟩
  · have hread := read_of_not_reservable h
    refine ⟨fun fault => ?_, iff_of_false (by simp [hread]) h⟩
    rw [hread, and_iff_left h, Except.error.injEq, eq_comm]

/-- A header can announce the largest count, and then no error is given. -/
theorem read_overflows :
    read "p cnf 1 18446744073709551615\n" = .error .capacityOverflow := by
  refine read_of_not_reservable (not_reservable_iff.2
    ⟨"p cnf 1 18446744073709551615".toList, [], 1, 18446744073709551615, ?_, ?_, by decide⟩)
  · exact layout_iff.2 (by decide +kernel)
  · exact (header?_eq_some (.cons (by decide))).1 (by decide +kernel)

end Cdcl.Dimacs
