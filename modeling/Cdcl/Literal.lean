/-!
# Variables and literals

`Var` is a propositional variable, numbered from 1. `Literal` is a variable with a sign. Its `code`
puts the variable in the high bits and the sign in the lowest one, so codes order literals by
variable and the two literals of a variable are neighbours: the positive one first. `Literal.sort`
and `Literal.canonical` list literals in that order, the second one without repetitions.
-/

namespace Cdcl
set_option autoImplicit false

/-- A propositional variable. -/
structure Var where
  /-- The number of the variable; 0 belongs to none. -/
  id : Nat
deriving DecidableEq, Hashable

/-- A variable or its negation. -/
structure Literal where
  var : Var
  /-- Whether the literal holds when the variable is false. -/
  negative : Bool
deriving DecidableEq, Hashable

/-- Literal codes fill words of 32 bits, which leaves 31 for the variable. -/
def Var.signedLimit : Nat := 0x80000000

/-- The literal of the given sign; the number of the variable is cut to the 31 bits of a code. -/
def Var.literal (v : Var) (negative : Bool) : Literal :=
  ⟨⟨v.id % Var.signedLimit⟩, negative⟩

/-- The literal that holds when the variable is true. -/
def Var.positive (v : Var) : Literal := v.literal false

/-- The literal that holds when the variable is false. -/
def Var.negated (v : Var) : Literal := v.literal true

def Var.text (v : Var) : String := "x" ++ toString v.id

namespace Literal

/-- The opposite literal of the same variable. -/
def neg (l : Literal) : Literal := { l with negative := !l.negative }

instance : Neg Literal := ⟨Literal.neg⟩

/-- The word that stands for a literal: twice the variable, plus one for a negative literal. -/
def code (l : Literal) : Nat := 2 * l.var.id + l.negative.toNat

def decode (code : Nat) : Literal := ⟨⟨code / 2⟩, code % 2 == 1⟩

/-- The signed number by which formulas name a literal. -/
def toInt (l : Literal) : Int := if l.negative then -(l.var.id : Int) else (l.var.id : Int)

def text (l : Literal) : String := toString l.toInt

def sameVar (l m : Literal) : Bool := l.var == m.var

@[simp] theorem neg_var (l : Literal) : (-l).var = l.var := rfl

@[simp] theorem neg_negative (l : Literal) : (-l).negative = !l.negative := rfl

@[simp] theorem neg_neg (l : Literal) : -(-l) = l := by
  cases l with
  | mk v n => cases n <;> rfl

theorem neg_ne_self (l : Literal) : -l ≠ l := by
  intro h
  have := congrArg Literal.negative h
  cases hn : l.negative <;> simp [hn] at this

theorem eq_or_eq_neg {l m : Literal} (h : l.var = m.var) : l = m ∨ l = -m := by
  obtain ⟨v, a⟩ := l
  obtain ⟨w, b⟩ := m
  obtain rfl : v = w := h
  cases a <;> cases b <;> simp [Neg.neg, neg]

@[simp] theorem decode_code (l : Literal) : decode l.code = l := by
  obtain ⟨⟨v⟩, n⟩ := l
  cases n with
  | false => simp [decode, code]
  | true =>
    have hdiv : (2 * v + 1) / 2 = v := by omega
    simp [decode, code, hdiv]

theorem code_injective {l m : Literal} (h : l.code = m.code) : l = m := by
  rw [← decode_code l, ← decode_code m, h]

/-! ## Order -/

/-- Puts a literal in front of the first one that is not below it. -/
def insert (l : Literal) : List Literal → List Literal
  | [] => [l]
  | m :: ms => if l.code ≤ m.code then l :: m :: ms else m :: insert l ms

def sort (ls : List Literal) : List Literal := ls.foldr insert []

/-- Puts a literal at its place in an increasing list that does not hold it yet. -/
def insertNew (l : Literal) : List Literal → List Literal
  | [] => [l]
  | m :: ms =>
    if l = m then m :: ms
    else if l.code < m.code then l :: m :: ms
    else m :: insertNew l ms

/-- The distinct literals in the order of their codes. -/
def canonical (ls : List Literal) : List Literal := ls.foldr insertNew []

def joined (ls : List Literal) : String := " ".intercalate (ls.map text)

end Literal
end Cdcl
