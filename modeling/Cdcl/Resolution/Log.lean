import Cdcl.Resolution.Event

/-!
# The log of a certificate

`Log` holds the words written so far, the next clause number and the chain under construction. A
chain is opened by `beginChain`, extended by `resolve` and written by `endChain`. A chain without
steps derives nothing new: it writes no record and gives back the clause it started from.
-/

namespace Cdcl
set_option autoImplicit false

/-- A certificate under construction. -/
structure Log where
  /-- The records written so far. -/
  words : Array Nat := #[]
  nextId : ClauseId := 0
  /-- The clause the last chain started from. -/
  start : Option ClauseId := none
  steps : Array ResolutionStep := #[]

namespace Log

/-- Records a clause of the formula under the next number. -/
def addRoot (g : Log) (literals : List Literal) : ClauseId × Log :=
  (g.nextId,
    { g with
      words := g.words ++ Event.rootWords (Literal.canonical literals)
      nextId := g.nextId + 1 })

/-- Starts a chain from a clause. -/
def beginChain (g : Log) (start : ClauseId) : Log := { g with start := some start, steps := #[] }

def resolve (g : Log) (next : ClauseId) (v : Var) : Except Fault Log := do
  require g.start.isSome .resolveOutsideChain
  .ok { g with steps := g.steps.push (v, next) }

def resolveAll (g : Log) : List ResolutionStep → Except Fault Log
  | [] => .ok g
  | (v, next) :: steps => do
    let g ← g.resolve next v
    g.resolveAll steps

/-- Writes the chain and gives the number of the clause it derives. -/
def endChain (g : Log) : Except Fault (ClauseId × Log) :=
  match g.start with
  | none => .error .assertionFailed
  | some start =>
    if g.steps.isEmpty then .ok (start, g)
    else do
      let words ← Event.chainWords g.nextId start g.steps.toList
      .ok (g.nextId, { g with words := g.words ++ words, nextId := g.nextId + 1 })

/-- Writes a whole chain and gives the number of the clause it derives. -/
def derive (g : Log) (start : ClauseId) (steps : List ResolutionStep) :
    Except Fault (ClauseId × Log) := do
  let g ← (g.beginChain start).resolveAll steps
  g.endChain

/-- Records that a clause is not used any more. -/
def deleted (g : Log) (gone : ClauseId) : Except Fault Log := do
  require (decide (gone < g.nextId)) (.deletingUnknown gone)
  .ok { g with words := g.words ++ Event.deletionWords g.nextId gone }

/-- The number of the last clause. -/
def last (g : Log) : Option ClauseId := if g.nextId = 0 then none else some (g.nextId - 1)

/-- What the words tell, up to the fault at which reading them stops. -/
def decode (g : Log) : List Event × Option Fault := Event.decode 0 g.words.toList

/-- What the words tell. -/
def events (g : Log) : Except Fault (List Event) :=
  match g.decode with
  | (es, none) => .ok es
  | (_, some f) => .error f

/-- The records that a log has got since it was `old`. -/
def eventsSince (old g : Log) : List Event :=
  (Event.decode old.nextId (g.words.extract old.words.size g.words.size).toList).1

end Log
end Cdcl
