import Cdcl.Table

/-!
# A heap of variables

`Heap` is a binary heap: the variables that are queued lie in `queue`, where no variable has a
higher score than the one at half its place, and `places` tells where each of them lies. Every
variable keeps its score, whether it is queued or not. Scores are of any type with a decidable
order.
-/

namespace Cdcl.Order
set_option autoImplicit false

/-- Variables with scores, some of which are queued by their scores. -/
structure Heap (α : Type) where
  scores : VarMap α := .empty
  /-- The queued variables, a highest one first. -/
  queue : Array Var := #[]
  /-- The place of every queued variable in the queue. -/
  places : VarMap (Option Nat) := .empty

namespace Heap

variable {α : Type}

/-- The widest cell of a variable has this many bytes. -/
def cellWidth : Nat := 8

/-- Makes room for the variables up to `vars`; new ones have the score `zero`. -/
def grow (h : Heap α) (vars : Nat) (zero : α) : Except Fault (Heap α) := do
  let scores ← h.scores.grow vars cellWidth zero
  let places ← h.places.grow vars cellWidth none
  .ok { h with scores, places }

def score (h : Heap α) (v : Var) : Except Fault α := h.scores.get v

def contains (h : Heap α) (v : Var) : Except Fault Bool := do
  let place ← h.places.get v
  .ok place.isSome

def scoreAt? (h : Heap α) (i : Nat) : Option α :=
  match h.queue[i]? with
  | some v => h.scores.cells[v.id]?
  | none => none

/-- Puts a variable at a place of the queue. -/
def place (h : Heap α) (i : Nat) (v : Var) : Heap α :=
  { h with queue := h.queue.setIfInBounds i v, places := h.places.put v (some i) }

def swap (h : Heap α) (i j : Nat) : Heap α :=
  match h.queue[i]?, h.queue[j]? with
  | some v, some w => (h.place i w).place j v
  | _, _ => h

section Sifting

variable [LT α] [DecidableLT α]

/-- Whether the variable at place `i` has a higher score than the one at place `j`. -/
def higher (h : Heap α) (i j : Nat) : Bool :=
  match h.scoreAt? i, h.scoreAt? j with
  | some a, some b => decide (b < a)
  | _, _ => false

/-- Moves the variable at a place up past every lower one. -/
def siftUp (h : Heap α) (i : Nat) : Heap α :=
  if _top : i = 0 then h
  else
    let parent := (i - 1) / 2
    if h.higher i parent then (h.swap i parent).siftUp parent else h
termination_by i
decreasing_by omega

/-- The place that the variable at place `i` should have among its own and those of its two
children. -/
def highestOf (h : Heap α) (i : Nat) : Nat :=
  let left := 2 * i + 1
  let right := 2 * i + 2
  let best := if h.higher left i then left else i
  if h.higher right best then right else best

/-- Moves the variable at a place down past every higher one; `fuel` bounds how often it moves. -/
def siftDownFrom : Nat → Heap α → Nat → Heap α
  | 0, h, _ => h
  | fuel + 1, h, i =>
    let best := h.highestOf i
    if best = i then h else siftDownFrom fuel (h.swap i best) best

/-- Moves the variable at a place down past every higher one. It moves to a later place each time,
so it moves less often than the queue has places. -/
def siftDown (h : Heap α) (i : Nat) : Heap α := siftDownFrom h.queue.size h i

/-- Queues a variable unless it is queued already. -/
def insert (h : Heap α) (v : Var) : Except Fault (Heap α) := do
  let queued ← h.contains v
  if queued then .ok h
  else
    let last := h.queue.size
    .ok ({ h with queue := h.queue.push v, places := h.places.put v (some last) }.siftUp last)

/-- Takes a variable of highest score out of the queue. -/
def pop (h : Heap α) : Option (Var × Heap α) :=
  match h.queue[0]? with
  | none => none
  | some top =>
    let last := h.queue.size - 1
    let h := h.swap 0 last
    let h := { h with queue := h.queue.pop, places := h.places.put top none }
    some (top, h.siftDown 0)

/-- Raises the score of a variable. -/
def increase (h : Heap α) (v : Var) (raise : α → α) : Except Fault (Heap α) := do
  let old ← h.scores.get v
  let place ← h.places.get v
  let h := { h with scores := h.scores.put v (raise old) }
  match place with
  | some i => .ok (h.siftUp i)
  | none => .ok h

end Sifting

/-- Changes all scores in a way that keeps their order. -/
def rescale (h : Heap α) (shrink : α → α) : Heap α := { h with scores := h.scores.map shrink }

end Heap
end Cdcl.Order
