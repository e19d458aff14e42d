import Cdcl.Literal.Checked

/-!
# Events of a certificate

A certificate is written as a sequence of words of 32 bits. Each record is an `Event`: a clause of
the formula, a clause derived by a chain of resolution steps, or the deletion of a clause. Roots and
derived clauses take the clause numbers 0, 1, 2, … in turn.

A root is the code of its first literal, doubled, followed by the differences between the codes of
its ascending literals; the empty root starts with the word 2. A chain is an odd word that holds the
distance from its own number back to the clause it starts from, followed by a variable and such a
distance for every step; without steps it is a deletion. Every record ends with a zero.
`Event.words` writes a record and `Event.decode` reads a whole log.
-/

namespace Cdcl
set_option autoImplicit false

/-- One resolution step: the variable, and the clause to resolve with. -/
abbrev ResolutionStep := Var × ClauseId

/-- What a record of a certificate tells. -/
inductive Event where
  | root (id : ClauseId) (literals : List Literal)
  /-- A clause derived from `start` by resolving with the clauses of the steps in turn. -/
  | chain (id start : ClauseId) (steps : List ResolutionStep)
  | deleted (id : ClauseId)
deriving DecidableEq

namespace Event

/-- Words of a log have 32 bits. -/
def wordLimit : Nat := 0x100000000

/-- A doubled number, cut to a word. -/
def doubled (n : Nat) : Nat := 2 * n % wordLimit

/-- The first word of a root without literals; it would be the code 1, which no literal has. -/
def emptyRoot : Nat := 2

/-! ## Writing -/

/-- The differences between neighbouring codes. -/
def codeGaps : List Literal → List Nat
  | l :: m :: ms => (m.code - l.code) :: codeGaps (m :: ms)
  | _ => []

/-- The first word of a root. -/
def rootHead : List Literal → Nat
  | [] => emptyRoot
  | l :: _ => doubled l.code

/-- The words of a root, whose literals ascend strictly. -/
def rootWords (literals : List Literal) : List Nat :=
  rootHead literals :: (codeGaps literals ++ [0])

/-- The distance from a clause number back to an earlier or equal one. -/
def distance (id target : ClauseId) : Except Fault Nat :=
  if target ≤ id then .ok (id - target) else .error .subtractionOverflow

/-- The words of the steps of the chain that derives clause `id`. -/
def stepWords (id : ClauseId) : List ResolutionStep → Except Fault (List Nat)
  | [] => .ok []
  | (v, next) :: steps => do
    let back ← distance id next
    let words ← stepWords id steps
    .ok (v.id :: back :: words)

def chainWords (id start : ClauseId) (steps : List ResolutionStep) : Except Fault (List Nat) := do
  let back ← distance id start
  let words ← stepWords id steps
  .ok ((doubled back + 1) :: (words ++ [0]))

/-- The words of a deletion in a log whose next clause has number `next`. -/
def deletionWords (next gone : ClauseId) : List Nat := [doubled (next - gone) + 1, 0]

/-! ## Reading -/

/-- Reads the literals that follow the one of the given code, up to the end of the record. -/
def readLiterals (code : Nat) : List Nat → Except Fault (List Literal × List Nat)
  | [] => .error .unterminatedRecord
  | gap :: words =>
    if gap = 0 then .ok ([], words)
    else do
      let l ← Literal.ofCode (code + gap)
      let (ls, rest) ← readLiterals (code + gap) words
      .ok (l :: ls, rest)

/-- Reads the literals of a root with the given first word. -/
def readRoot (head : Nat) (words : List Nat) : Except Fault (List Literal × List Nat) :=
  if head = emptyRoot then readLiterals (head / 2) words
  else do
    let l ← Literal.ofCode (head / 2)
    let (ls, rest) ← readLiterals (head / 2) words
    .ok (l :: ls, rest)

/-- The clause number at a distance before `id`. -/
def backFrom (id : ClauseId) (back : Nat) : Except Fault ClauseId :=
  if back ≤ id then .ok (id - back) else .error .subtractionOverflow

/-- Reads the steps of the chain that derives clause `id`, up to the end of the record. -/
def readSteps (id : ClauseId) : List Nat → Except Fault (List ResolutionStep × List Nat)
  | [] => .error .unterminatedRecord
  | 0 :: words => .ok ([], words)
  | [_] => .error .unterminatedRecord
  | v :: back :: words => do
    let next ← backFrom id back
    let (steps, rest) ← readSteps id words
    .ok ((⟨v⟩, next) :: steps, rest)

/-- Reads the record that starts with the word `head`. The clause it records, if any, gets the
number `id`. -/
def read (id : ClauseId) (head : Nat) (words : List Nat) : Except Fault (Event × List Nat) :=
  if head % 2 = 0 then do
    let (literals, rest) ← readRoot head words
    .ok (.root id literals, rest)
  else do
    let start ← backFrom id (head / 2)
    let (steps, rest) ← readSteps id words
    match steps with
    | [] => .ok (.deleted start, rest)
    | _ :: _ => .ok (.chain id start steps, rest)

/-- Whether a record takes a clause number. -/
def recordsClause : Event → Bool
  | .deleted _ => false
  | _ => true

/-- Reads at most `fuel` records: the events up to the end of the words, or up to the fault at
which reading stops. -/
def decodeFrom : Nat → ClauseId → List Nat → List Event × Option Fault
  | 0, _, _ => ([], none)
  | _, _, [] => ([], none)
  | fuel + 1, id, head :: words =>
    match read id head words with
    | .error f => ([], some f)
    | .ok (e, rest) =>
      let (es, f) := decodeFrom fuel (if e.recordsClause then id + 1 else id) rest
      (e :: es, f)

/-- Reads a log whose first clause gets the number `id`. Every record has at least one word, so the
number of words bounds the number of records. -/
def decode (id : ClauseId) (words : List Nat) : List Event × Option Fault :=
  decodeFrom words.length id words

end Event
end Cdcl
