import Cdcl.Proofs.Solver.Bookkeeping

/-!
# Adding what is stored already

The records of a reachable solver fit its store (`Reachable.books`). So a constraint that the intake
reduces to the degree and the literals of a stored one is found again, and adding it changes nothing
but the journal.
-/

namespace Cdcl
set_option autoImplicit false

namespace Solver

variable {s : Solver} {kept : List ClauseRef} {ref : ClauseRef} {e : Stored} {ls : List Literal}
  {c : Constraint}

/-! ## Additions that find their constraint stored -/

/-- What the intake reduces the constraint of a call to: at least `degree` of the literals hold. -/
inductive Reduces (s : Solver) : Call → Nat → List Literal → Prop
  | clause {raws : List Int} {ls rest : List Literal} (hls : s.literals raws = .ok ls)
      (h : Intake.clause ls s.trail = .ok (.ok (.clause rest))) : Reduces s (.addClause raws) 1 rest
  /-- When a certificate is kept, an at-least constraint of degree 1 is taken as a clause. -/
  | certified {raws : List Int} {ls rest : List Literal} (hcert : s.certificate.isSome = true)
      (hls : s.literals raws = .ok ls) (h : Intake.clause ls s.trail = .ok (.ok (.clause rest))) :
      Reduces s (.addAtLeast raws 1) 1 rest
  /-- Enough literals are true for the rest to be a clause. -/
  | lowered {raws : List Int} {ls rest : List Literal} {degree : Nat}
      (hcert : s.certificate.isSome = false) (hls : s.literals raws = .ok ls)
      (h : Intake.atLeast ls degree s.trail = .ok (.ok (.clause (.clause rest)))) :
      Reduces s (.addAtLeast raws degree) 1 rest
  | atLeast {raws : List Int} {ls rest : List Literal} {degree d : Nat}
      (hcert : s.certificate.isSome = false) (hls : s.literals raws = .ok ls)
      (h : Intake.atLeast ls degree s.trail = .ok (.ok (.atLeast rest d))) :
      Reduces s (.addAtLeast raws degree) d rest

/-- What an at-least constraint leaves, unless its degree is so large that it counts as negative. -/
theorem leftOf_of_atLeast {t : Trail} {degree : Nat} {form : Intake.AtLeastForm}
    (hdegree : degree < Word.limit) (hne : form ≠ .satisfied)
    (h : Intake.atLeast ls degree t = .ok (.ok form)) :
    form.LeftOf t (Intake.counted t ls) degree := by
  by_cases hsmall : degree < Word.addressable
  · exact Intake.atLeast_eq_ok hsmall h
  · have hform := Intake.atLeast_eq_ok_of_large (Nat.not_lt.1 hsmall) hdegree h
    exact absurd (Except.ok.inj hform) hne

/-- A constraint whose key is known is found again. -/
theorem Books.storeGiven_of_known (h : s.Books kept) (he : s.store.get? ref = some e)
    (hgiven : e.learnt = false) (hkey : e.constraint.key = c.key) (given : List Literal) :
    s.storeGiven c given = .ok (.stored ref, s.note (.duplicate c.literals ref)) := by
  unfold Solver.storeGiven
  rw [(h.known c.key ref).2 ⟨e, he, hgiven, hkey⟩]

section
variable {rest given kept' : List Literal} {d degree : Nat} (h : s.Books kept)
  (he : s.store.get? ref = some e) (hgiven : e.learnt = false) (hvalid : e.constraint.Valid)
  (hmembers : ∀ l, l ∈ e.constraint.literals ↔ l ∈ rest)
include h he hgiven hvalid hmembers

theorem Books.storeGiven_of_members (hc : c.Valid) (hdegree : e.constraint.degree = c.degree)
    (hlits : c.literals = rest) :
    s.storeGiven c given = .ok (.stored ref, s.note (.duplicate rest ref)) := by
  have hperm := (List.perm_ext_iff_of_nodup hvalid.nodup hc.nodup).2 fun l => hlits ▸ hmembers l
  rw [← hlits]
  exact h.storeGiven_of_known he hgiven (Constraint.key_eq_of_perm hdegree hperm) given

theorem Books.clause_of_members (hdegree : e.constraint.degree = 1)
    (hform : Intake.ClauseForm.LeftOf s.trail kept' (.clause rest)) :
    ∃ c, Constraint.clause rest = .ok c ∧
      s.storeGiven c given = .ok (.stored ref, s.note (.duplicate rest ref)) := by
  obtain ⟨hleft, hlen⟩ : Intake.Remains s.trail kept' rest ∧ 2 ≤ rest.length := hform
  obtain ⟨c, hc⟩ := Constraint.clause_succeeds hlen hleft.distinct
  obtain ⟨hc', hcdegree, hlits⟩ := Constraint.clause_eq_ok hc hleft.distinct
  exact ⟨c, hc, h.storeGiven_of_members he hgiven hvalid hmembers hc'
    (hdegree.trans hcdegree.symm) hlits⟩

theorem Books.addLiterals_of_members (hopen : s.refuted = false)
    (hdegree : e.constraint.degree = 1)
    (hform : Intake.clause ls s.trail = .ok (.ok (.clause rest))) :
    s.addLiterals ls = .ok (.ok (.stored ref), s.note (.duplicate rest ref)) := by
  obtain ⟨c, hc, hs⟩ :=
    h.clause_of_members he hgiven hvalid hmembers hdegree (Intake.clause_eq_ok hform)
  unfold Solver.addLiterals
  rw [if_neg (by simp [hopen])]
  exact bind_eq_ok_iff.2 ⟨_, hform, bind_eq_ok_iff.2 ⟨c, hc, bind_eq_ok_iff.2 ⟨_, hs, rfl⟩⟩⟩

theorem Books.addCardinality_of_lowered (hdegree : e.constraint.degree = 1) (hd : d < Word.limit)
    (hform : Intake.atLeast ls d s.trail = .ok (.ok (.clause (.clause rest)))) :
    s.addCardinality ls d = .ok (.ok (.stored ref), s.note (.duplicate rest ref)) := by
  obtain ⟨kept', -, hleft, -⟩ := leftOf_of_atLeast hd (by simp) hform
  obtain ⟨c, hc, hs⟩ := h.clause_of_members he hgiven hvalid hmembers hdegree hleft
  exact bind_eq_ok_iff.2 ⟨_, hform, bind_eq_ok_iff.2 ⟨c, hc, bind_eq_ok_iff.2 ⟨_, hs, rfl⟩⟩⟩

theorem Books.addCardinality_of_members (hdegree : e.constraint.degree = degree)
    (hd : d < Word.limit) (hform : Intake.atLeast ls d s.trail = .ok (.ok (.atLeast rest degree))) :
    s.addCardinality ls d = .ok (.ok (.stored ref), s.note (.duplicate rest ref)) := by
  obtain ⟨hleft, -⟩ := leftOf_of_atLeast hd (by simp) hform
  obtain ⟨hpos, hlt⟩ := Intake.degree_lt_length hform
  obtain ⟨c, hc⟩ := Constraint.atLeastOf_succeeds hpos hlt
  obtain ⟨hc', hcdegree, hlits⟩ := Constraint.atLeastOf_eq_ok hc hleft.distinct
  have hs : s.storeGiven c rest = .ok (.stored ref, s.note (.duplicate rest ref)) :=
    h.storeGiven_of_members he hgiven hvalid hmembers hc' (hdegree.trans hcdegree.symm) hlits
  exact bind_eq_ok_iff.2 ⟨_, hform, bind_eq_ok_iff.2 ⟨c, hc, bind_eq_ok_iff.2 ⟨_, hs, rfl⟩⟩⟩

/-- Adding what is stored already gives its place and leaves nothing but a notice. -/
theorem Books.perform_of_reduces {call : Call} (hopen : s.refuted = false)
    (hcall : call.Representable) (hreduces : s.Reduces call degree rest)
    (hdegree : e.constraint.degree = degree) :
    s.perform call = .ok (.added (.ok (.stored ref)), s.note (.duplicate rest ref)) := by
  have hatLeast : ∀ {raws d}, s.addAtLeast raws d =
      .ok (.ok (.stored ref), s.note (.duplicate rest ref)) →
      s.perform (.addAtLeast raws d) =
        .ok (.added (.ok (.stored ref)), s.note (.duplicate rest ref)) :=
    fun ha => bind_eq_ok_iff.2 ⟨_, ha, rfl⟩
  cases hreduces with
  | clause hls hform =>
    have ha := h.addLiterals_of_members he hgiven hvalid hmembers hopen hdegree hform
    exact bind_eq_ok_iff.2 ⟨_, bind_eq_ok_iff.2 ⟨_, hls, ha⟩, rfl⟩
  | certified hcert hls hform =>
    refine hatLeast (bind_eq_ok_iff.2 ⟨_, hls, ?_⟩)
    rw [if_neg (by simp [hopen]), if_pos hcert]
    exact h.addLiterals_of_members he hgiven hvalid hmembers hopen hdegree hform
  | lowered hcert hls hform =>
    refine hatLeast (bind_eq_ok_iff.2 ⟨_, hls, ?_⟩)
    rw [if_neg (by simp [hopen]), if_neg (by simp [hcert])]
    exact h.addCardinality_of_lowered he hgiven hvalid hmembers hdegree hcall.2 hform
  | atLeast hcert hls hform =>
    refine hatLeast (bind_eq_ok_iff.2 ⟨_, hls, ?_⟩)
    rw [if_neg (by simp [hopen]), if_neg (by simp [hcert])]
    exact h.addCardinality_of_members he hgiven hvalid hmembers hdegree hcall.2 hform

end

end Solver

/-! ## Reachable solvers -/

open Solver

variable {config : Config} {s : Solver}

/-- The records of a reachable solver fit its store, and so do those of every state of a search.
Propagation only permutes the literals of the stored constraints. As long as the formula is not
refuted, adding a constraint of the formula once more, in whatever form, gives the place where it is
stored and changes nothing but the journal. -/
theorem Reachable.books (h : Reachable config s) :
    (s.Books s.learnts ∧ s.numConstraints = s.formulaSize + s.numLearnts) ∧
    (∀ b A r₀ n restarts r s₁, Rounds b A r₀ (s.atStart n restarts) r s₁ →
      s₁.Books s₁.learnts ∧ s₁.numConstraints = s₁.formulaSize + s₁.numLearnts) ∧
    (∀ s₁ o s₂, Solver.propagate s₁ = .ok (o, s₂) →
      s₁.store.Permutes s₂.store ∧ (s₁.Books s₁.learnts → s₂.Books s₂.learnts)) ∧
    (s.refuted = false → ∀ call degree rest, call.Representable → s.Reduces call degree rest →
      ∀ ref e, s.store.get? ref = some e → e.learnt = false → e.constraint.degree = degree →
        (∀ l, l ∈ e.constraint.literals ↔ l ∈ rest) →
        s.perform call = .ok (.added (.ok (.stored ref)), s.note (.duplicate rest ref))) := by
  have hbooks : s.Books s.learnts := by
    induction h with
    | create h => exact books_create h
    | call _ _ hr _ ih => exact ih.perform hr
  refine ⟨⟨hbooks, hbooks.numConstraints⟩, fun b A r₀ n restarts r s₁ hr => ?_,
    fun s₁ o s₂ hs₂ => ⟨?_, fun h₁ => h₁.rearranged (propagate_rearranges hs₂)⟩,
    fun hopen call degree rest hcall hreduces ref e he hgiven hdegree hmembers => ?_⟩
  · have hstart : (s.atStart n restarts).Books (s.atStart n restarts).learnts :=
      hbooks.rearranged (.of_eq rfl rfl rfl rfl)
    have h₁ := hstart.rounds hr
    exact ⟨h₁, h₁.numConstraints⟩
  · obtain ⟨⟨o, k⟩, hk, hs₂⟩ := bind_eq_ok_iff.1 hs₂
    obtain ⟨-, rfl⟩ := Prod.mk.inj (Except.ok.inj hs₂)
    exact Kernel.propagate_permutes hk
  · obtain ⟨F, hidle, -⟩ := h.idle hopen
    exact hbooks.perform_of_reduces he hgiven (hidle.ready.sound.shape he) hmembers hopen hcall
      hreduces hdegree

/-- The clause of three literals is stored once, however often and in whatever order its literals
are given. -/
theorem Reachable.books_repeated : ∃ s : Solver, Reachable Config.plain s ∧ s.refuted = false ∧
    s.numConstraints = 1 ∧
    s.perform (.addClause [3, 2, 1, 2]) = .ok (.added (.ok (.stored ⟨0⟩)),
      s.note (.duplicate [⟨⟨1⟩, false⟩, ⟨⟨2⟩, false⟩, ⟨⟨3⟩, false⟩] ⟨0⟩)) := by
  have h₀ : Reachable Config.plain _ := .create (show Solver.create Config.plain = .ok _ from rfl)
  have h₁ := h₀.call (c := .newVars 3) trivial rfl (by decide)
  have h₂ := h₁.call (c := .addClause [1, 2, 3]) trivial
    (Solver.perform_addClause_of_empty rfl rfl rfl rfl rfl rfl rfl) (by decide)
  obtain ⟨⟨-, hnum⟩, -, -, hagain⟩ := h₂.books
  exact ⟨_, h₂, rfl, hnum.trans rfl, hagain rfl (.addClause [3, 2, 1, 2]) 1 _ trivial
    (.clause rfl rfl) ⟨0⟩ _ rfl rfl rfl fun _ => Iff.rfl⟩

end Cdcl
