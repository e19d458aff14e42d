import Cdcl.Proofs.Assignment
import Cdcl.Resolution

/-!
# When resolution is sound

`resolve` looks at the first literal of the pivot variable in each clause and drops every literal of
that variable. This keeps the meaning as long as neither clause holds both literals of the variable,
and apart from resolvents that are tautologies it keeps it only then
(`resolve_sound_iff`).
-/

namespace Cdcl
set_option autoImplicit false

/-- A clause holds both literals of a variable. -/
def TwoSided (c : List Literal) (v : Var) : Prop := ⟨v, false⟩ ∈ c ∧ ⟨v, true⟩ ∈ c

/-- A clause that every assignment satisfies. -/
def Tautology (c : List Literal) : Prop := ∃ v, TwoSided c v

/-- Resolving the clauses on the variable loses nothing: neither holds both literals of it, or the
resolvent holds anyway. -/
def SoundStep (c d : List Literal) (v : Var) (r : List Literal) : Prop :=
  (¬ TwoSided c v ∧ ¬ TwoSided d v) ∨ Tautology r

namespace Resolution

variable {c d r : List Literal} {v : Var} {a : Assignment}

theorem literalOf_eq_ok {l : Literal} (h : literalOf v c = .ok l) : l ∈ c ∧ l.var = v := by
  unfold literalOf at h
  split at h
  · next m hm =>
    obtain rfl : m = l := by simpa using h
    exact ⟨List.mem_of_find?_eq_some hm, by simpa using List.find?_some hm⟩
  · exact absurd h (by simp)

theorem mem_resolvent {l : Literal} : l ∈ resolvent c d v ↔ (l ∈ c ∨ l ∈ d) ∧ l.var ≠ v := by
  simp [resolvent, or_and_right]

/-- The clauses hold the variable with opposite signs. -/
theorem of_resolve_eq_ok (h : resolve c d v = .ok r) :
    r = resolvent c d v ∧ ∃ b, ⟨v, b⟩ ∈ c ∧ ⟨v, !b⟩ ∈ d := by
  unfold resolve at h
  cases hp : literalOf v c with
  | error e => simp [hp, bind, Except.bind] at h
  | ok p =>
    cases hq : literalOf v d with
    | error e => simp [hp, hq, bind, Except.bind] at h
    | ok q =>
      simp only [hp, hq, bind, Except.bind] at h
      split at h
      · exact absurd h (by simp)
      · next hne =>
        obtain ⟨hpc, hpv⟩ := literalOf_eq_ok hp
        obtain ⟨hqd, hqv⟩ := literalOf_eq_ok hq
        obtain ⟨pv, pn⟩ := p
        obtain ⟨qv, qn⟩ := q
        obtain rfl : pv = v := hpv
        obtain rfl : qv = pv := hqv
        have hqn : qn = !pn := by
          cases pn <;> cases qn <;> simp_all
        refine ⟨by simpa using h.symm, pn, hpc, ?_⟩
        rw [← hqn]
        exact hqd

theorem ascending_of_resolve (h : resolve c d v = .ok r) : Literal.Ascending r :=
  (of_resolve_eq_ok h).1 ▸ Literal.ascending_canonical _

theorem Tautology.satisfies (h : Tautology c) (a : Assignment) : a.Satisfies c := by
  obtain ⟨v, hf, ht⟩ := h
  cases hv : a v with
  | true => exact ⟨_, hf, by simp [Assignment.makes, hv]⟩
  | false => exact ⟨_, ht, by simp [Assignment.makes, hv]⟩

/-- A literal of the pivot variable is the only one of it in a clause that does not hold both. -/
theorem sign_unique {b b' : Bool} (hc : ¬ TwoSided c v) (hb : (⟨v, b⟩ : Literal) ∈ c)
    (hb' : (⟨v, b'⟩ : Literal) ∈ c) : b' = b := by
  cases b <;> cases b'
  · rfl
  · exact absurd ⟨hb, hb'⟩ hc
  · exact absurd ⟨hb', hb⟩ hc
  · rfl

theorem satisfies_of_soundStep (h : resolve c d v = .ok r) (hs : SoundStep c d v r)
    (hc : a.Satisfies c) (hd : a.Satisfies d) : a.Satisfies r := by
  rcases hs with ⟨hcv, hdv⟩ | htaut
  · obtain ⟨rfl, b, hbc, hbd⟩ := of_resolve_eq_ok h
    obtain ⟨l, hl, hal⟩ := hc
    by_cases hlv : l.var = v
    · -- the true literal of `c` is the pivot, so the literal that satisfies `d` is not the opposite
      obtain ⟨m, hm, ham⟩ := hd
      refine ⟨m, mem_resolvent.2 ⟨Or.inr hm, fun hmv => ?_⟩, ham⟩
      obtain ⟨lv, ln⟩ := l
      obtain ⟨mv, mn⟩ := m
      obtain rfl : lv = v := hlv
      obtain rfl : mv = lv := hmv
      have hln : ln = b := sign_unique hcv hbc hl
      have hmn : mn = !b := sign_unique hdv hbd hm
      subst hln hmn
      cases hav : a mv <;> cases ln <;> simp [Assignment.makes, hav] at hal ham
    · exact ⟨l, mem_resolvent.2 ⟨Or.inl hl, hlv⟩, hal⟩
  · exact Tautology.satisfies htaut a

/-- Makes every literal of a clause false that is no tautology, and gives one variable a value. -/
def refuting (r : List Literal) (v : Var) (value : Bool) : Assignment := fun w =>
  if w = v then value else decide ((⟨w, true⟩ : Literal) ∈ r)

theorem not_satisfies_refuting (hr : ¬ Tautology r) (hv : ∀ l ∈ r, l.var ≠ v) (value : Bool) :
    ¬ (refuting r v value).Satisfies r := by
  rintro ⟨⟨w, n⟩, hl, hal⟩
  have hwv : w ≠ v := hv _ hl
  simp only [Assignment.makes, refuting, hwv, if_false] at hal
  cases n with
  | true => simp [hl] at hal
  | false =>
    have ht : (⟨w, true⟩ : Literal) ∈ r := by simpa using hal
    exact hr ⟨w, hl, ht⟩

theorem satisfies_refuting {b : Bool} (hb : (⟨v, b⟩ : Literal) ∈ c) :
    (refuting r v (!b)).Satisfies c := by
  refine ⟨_, hb, ?_⟩
  cases b <;> simp [Assignment.makes, refuting]

theorem TwoSided.mem (h : TwoSided c v) (b : Bool) : (⟨v, b⟩ : Literal) ∈ c := by
  cases b
  · exact h.1
  · exact h.2

/-- A step keeps the meaning exactly if it is sound. -/
theorem resolve_sound_iff (h : resolve c d v = .ok r) :
    (∀ a : Assignment, a.Satisfies c → a.Satisfies d → a.Satisfies r) ↔ SoundStep c d v r := by
  constructor
  · intro hall
    by_contra hns
    obtain ⟨htwo, htaut⟩ := not_or.1 hns
    obtain ⟨rfl, b, hbc, hbd⟩ := of_resolve_eq_ok h
    have hrv : ∀ l ∈ resolvent c d v, l.var ≠ v := fun l hl => (mem_resolvent.1 hl).2
    -- the value of the pivot satisfies the clause that holds both literals, whatever it is
    by_cases hc : TwoSided c v
    · have hsat := hall (refuting (resolvent c d v) v (!!b)) (satisfies_refuting (TwoSided.mem hc _))
        (satisfies_refuting hbd)
      exact not_satisfies_refuting htaut hrv _ hsat
    · have hd : TwoSided d v := by
        by_contra hd
        exact htwo ⟨hc, hd⟩
      have hsat := hall (refuting (resolvent c d v) v (!b)) (satisfies_refuting hbc)
        (satisfies_refuting (TwoSided.mem hd _))
      exact not_satisfies_refuting htaut hrv _ hsat
  · intro hs a
    exact satisfies_of_soundStep h hs

end Resolution
end Cdcl
