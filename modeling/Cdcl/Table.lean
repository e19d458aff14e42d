import Cdcl.Word

/-!
# Tables over variables and literals

`VarMap` has a cell for every variable up to some number, and one more for the unused number 0.
`LiteralMap` has a cell for every literal of these variables, in the order of the codes. Tables only
grow. Reading or writing a cell that is not there is a fault.
-/

namespace Cdcl
set_option autoImplicit false

/-- One value for every variable. -/
structure VarMap (α : Type) where
  cells : Array α

/-- One value for every literal. -/
structure LiteralMap (α : Type) where
  cells : Array α

variable {α : Type}

def VarMap.empty : VarMap α := ⟨#[]⟩

def LiteralMap.empty : LiteralMap α := ⟨#[]⟩

instance : Inhabited (VarMap α) := ⟨.empty⟩

instance : Inhabited (LiteralMap α) := ⟨.empty⟩

/-- Lengthens a list of cells to the given number of them. -/
def padded (cells : Array α) (count : Nat) (fill : α) : Array α :=
  cells ++ Array.replicate (count - cells.size) fill

namespace VarMap

/-- The number of cells that the variables up to `vars` take. -/
def room (vars : Nat) : Except Fault Nat := Word.add vars 1

/-- Makes room for the variables up to `vars`; new cells of `width` bytes hold `fill`. -/
def grow (m : VarMap α) (vars width : Nat) (fill : α) : Except Fault (VarMap α) := do
  let count ← room vars
  if m.cells.size < count then
    Word.reserve count width
    .ok ⟨padded m.cells count fill⟩
  else .ok m

def covers (m : VarMap α) (v : Var) : Bool := decide (v.id < m.cells.size)

def get (m : VarMap α) (v : Var) : Except Fault α :=
  match m.cells[v.id]? with
  | some a => .ok a
  | none => .error .indexOutOfBounds

/-- The value of a variable, or the given one if it has no cell. -/
def getD (m : VarMap α) (v : Var) (fill : α) : α := m.cells.getD v.id fill

/-- Changes nothing if the variable has no cell. -/
def put (m : VarMap α) (v : Var) (a : α) : VarMap α := ⟨m.cells.setIfInBounds v.id a⟩

def set (m : VarMap α) (v : Var) (a : α) : Except Fault (VarMap α) :=
  if v.id < m.cells.size then .ok (m.put v a) else .error .indexOutOfBounds

/-- The values of the variables from 1 on. -/
def toList (m : VarMap α) : List α := m.cells.toList.drop 1

/-- Changes the values of the variables from 1 on. -/
def map (f : α → α) (m : VarMap α) : VarMap α :=
  ⟨m.cells.mapIdx fun i a => if i = 0 then a else f a⟩

end VarMap

namespace LiteralMap

/-- The number of cells that the literals of the variables up to `vars` take. -/
def room (vars : Nat) : Except Fault Nat := do Word.mul (← Word.add vars 1) 2

/-- Makes room for the literals of the variables up to `vars`; new cells of `width` bytes hold
`fill`. -/
def grow (m : LiteralMap α) (vars width : Nat) (fill : α) : Except Fault (LiteralMap α) := do
  let count ← room vars
  if m.cells.size < count then
    Word.reserve count width
    .ok ⟨padded m.cells count fill⟩
  else .ok m

def get (m : LiteralMap α) (l : Literal) : Except Fault α :=
  match m.cells[l.code]? with
  | some a => .ok a
  | none => .error .indexOutOfBounds

/-- The value of a literal, or the given one if it has no cell. -/
def getD (m : LiteralMap α) (l : Literal) (fill : α) : α := m.cells.getD l.code fill

/-- Changes nothing if the literal has no cell. -/
def put (m : LiteralMap α) (l : Literal) (a : α) : LiteralMap α :=
  ⟨m.cells.setIfInBounds l.code a⟩

def set (m : LiteralMap α) (l : Literal) (a : α) : Except Fault (LiteralMap α) :=
  if l.code < m.cells.size then .ok (m.put l a) else .error .indexOutOfBounds

def modify (m : LiteralMap α) (l : Literal) (f : α → α) : Except Fault (LiteralMap α) :=
  if l.code < m.cells.size then .ok ⟨m.cells.modify l.code f⟩ else .error .indexOutOfBounds

end LiteralMap
end Cdcl
