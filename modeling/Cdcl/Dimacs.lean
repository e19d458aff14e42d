import Cdcl.Notice
import Cdcl.Text.Blank
import Cdcl.Word

/-!
# Formulas in DIMACS format

A formula is a header line `p cnf V C` and clauses: whole numbers, of which a zero ends a clause and
any other one names a literal of the variables 1 to V. Lines are read without the blank characters
at their ends; empty lines and lines that start with `c` are skipped, and a line that starts with
`%` ends the formula. Clauses need not agree with lines, nor their number with C.

`Dimacs.read` is the reader, `Dimacs.integers` reads the numbers of a line, and
`Dimacs.splitAtZeros` cuts them into clauses.
-/

namespace Cdcl.Dimacs
set_option autoImplicit false

/-- A formula as it was written. -/
structure Formula where
  vars : Nat
  /-- The number of clauses that the header announces. -/
  announced : Nat
  clauses : List (List Int)

/-- Why a text is not a formula. -/
inductive ReadError where
  | emptyInput
  | badHeader (line : String)
  /-- A clause line goes on where no number can be read. -/
  | unexpected (rest line : String)
  | literalTooLarge (literal : Int) (vars : Nat)
  /-- The last clause lacks its zero. -/
  | unterminated
deriving DecidableEq

def ReadError.message : ReadError → String
  | emptyInput => "empty input"
  | badHeader line => "invalid dimacs header '" ++ line ++ "'"
  | unexpected rest line => "unexpected '" ++ rest ++ "' in clause '" ++ line ++ "'"
  | literalTooLarge literal vars =>
    "literal " ++ toString literal ++ " exceeds the " ++ toString vars ++ " declared variables"
  | unterminated => "last clause is not terminated by 0"

/-! ## Numbers -/

/-- The characters that separate numbers. -/
def isSeparator (c : Char) : Bool := c == ' ' || c == '\t' || c == '\r' || c == '\n'

def skipSeparators (cs : List Char) : List Char := cs.dropWhile isSeparator

/-- Drops the separators at the start of a text; there has to be one. -/
def separators? : List Char → Option (List Char)
  | [] => none
  | c :: cs => if isSeparator c then some (skipSeparators cs) else none

def valueOf (digits : List Char) : Nat :=
  digits.foldl (fun n c => 10 * n + (c.toNat - '0'.toNat)) 0

def digits? (cs : List Char) : Option (Nat × List Char) :=
  let ds := cs.takeWhile Char.isDigit
  if ds.isEmpty then none else some (valueOf ds, cs.dropWhile Char.isDigit)

/-- Reads a count that fits a word. -/
def count? (cs : List Char) : Option (Nat × List Char) :=
  match digits? cs with
  | some (n, rest) => if n < Word.limit then some (n, rest) else none
  | none => none

/-- Reads a whole number of 32 bits, with an optional minus sign. -/
def integer? (cs : List Char) : Option (Int × List Char) :=
  match cs with
  | '-' :: ds =>
    match digits? ds with
    | some (n, rest) => if n ≤ 0x80000000 then some (-(n : Int), rest) else none
    | none => none
  | ds =>
    match digits? ds with
    | some (n, rest) => if n < 0x80000000 then some ((n : Int), rest) else none
    | none => none

/-- Reads further numbers, each after separators, as long as there are any; `fuel` bounds how many.
A separator that no number follows is left unread. -/
def moreIntegers : Nat → List Char → List Int × List Char
  | 0, cs => ([], cs)
  | fuel + 1, cs =>
    match (separators? cs).bind integer? with
    | some (i, rest) =>
      let (is, rest) := moreIntegers fuel rest
      (i :: is, rest)
    | none => ([], cs)

/-- Reads the numbers at the start of a line, and what follows them. A number takes at least one
character, so there are no more numbers than characters. -/
def integers (cs : List Char) : List Int × List Char :=
  let cs := skipSeparators cs
  match integer? cs with
  | some (i, rest) =>
    let (is, rest) := moreIntegers rest.length rest
    (i :: is, rest)
  | none => ([], cs)

/-! ## Lines -/

/-- The pieces of a text between its line feeds. -/
def lines : List Char → List (List Char)
  | [] => [[]]
  | c :: cs =>
    if c = '\n' then [] :: lines cs
    else match lines cs with
      | [] => [[c]]
      | l :: ls => (c :: l) :: ls

/-- Whether a line has something to say. -/
def isEffective (line : List Char) : Bool :=
  match line with
  | [] => false
  | c :: _ => c != 'c'

/-- The trimmed lines that are neither empty nor comments. -/
def effectiveLines (text : List Char) : List (List Char) :=
  ((lines text).map Text.trim).filter isEffective

/-- A text without the given start. -/
def expect? : List Char → List Char → Option (List Char)
  | [], cs => some cs
  | _ :: _, [] => none
  | k :: ks, c :: cs => if k = c then expect? ks cs else none

/-- Reads the header: the numbers of variables and clauses. What follows them is ignored. -/
def header? (line : List Char) : Option (Nat × Nat) := do
  let rest ← expect? ['p'] (skipSeparators line)
  let rest ← separators? rest
  let rest ← expect? ['c', 'n', 'f'] rest
  let rest ← separators? rest
  let (vars, rest) ← count? rest
  let rest ← separators? rest
  let (clauses, _) ← count? rest
  some (vars, clauses)

def clauseLine (vars : Nat) (line : List Char) : Except ReadError (List Int) :=
  let (is, rest) := integers line
  let rest := Text.trim rest
  if rest.isEmpty then
    match is.find? fun i => vars < i.natAbs with
    | some i => .error (.literalTooLarge i vars)
    | none => .ok is
  else .error (.unexpected (String.ofList rest) (String.ofList line))

def clauseLines (vars : Nat) : List (List Char) → Except ReadError (List Int)
  | [] => .ok []
  | line :: lines => do
    let is ← clauseLine vars line
    let rest ← clauseLines vars lines
    .ok (is ++ rest)

/-- The clauses that the numbers before each zero form, and the numbers after the last zero. -/
def splitAtZeros : List Int → List (List Int) × List Int
  | [] => ([], [])
  | i :: is =>
    let (clauses, rest) := splitAtZeros is
    if i = 0 then ([] :: clauses, rest)
    else match clauses with
      | [] => ([], i :: rest)
      | c :: cs => ((i :: c) :: cs, rest)

/-- Whether a line ends the formula. -/
def endsFormula (line : List Char) : Bool := line.head? == some '%'

/-- Reads the lines that follow the header. -/
def clauses (vars : Nat) (lines : List (List Char)) : Except ReadError (List (List Int)) := do
  let is ← clauseLines vars (lines.takeWhile (!endsFormula ·))
  match splitAtZeros is with
  | (cs, []) => .ok cs
  | (_, _ :: _) => .error .unterminated

/-! ## Formulas -/

/-- The width in bytes of the place that is set aside for each announced clause. -/
def clauseWidth : Nat := 24

/-- Reads a formula. Room for the announced clauses is made beforehand. -/
def read (text : String) : Except Fault (Except ReadError Formula) :=
  match effectiveLines text.toList with
  | [] => .ok (.error .emptyInput)
  | line :: lines =>
    match header? line with
    | none => .ok (.error (.badHeader (String.ofList line)))
    | some (vars, announced) => do
      Word.reserve announced clauseWidth
      .ok (match clauses vars lines with
        | .error e => .error e
        | .ok cs => .ok ⟨vars, announced, cs⟩)

/-- What is told while a formula is read. -/
def notices (text : String) : List Notice :=
  match (effectiveLines text.toList).head?.bind header? with
  | none => [.reading]
  | some (vars, announced) =>
    let count := match read text with
      | .ok (.ok f) =>
        if f.clauses.length = announced then [] else [Notice.miscounted announced f.clauses.length]
      | _ => []
    .reading :: .announced vars announced :: count

end Cdcl.Dimacs
