import Cdcl.CommandLine.Options
import Cdcl.Dimacs
import Cdcl.Models

/-!
# The command line

`CommandLine.respond` decides a formula as the options ask: it looks for a model, checks the
certificate of a refutation, or counts the models. The answer is what to print and the exit code:
0 for an answer, 1 for an input that cannot be used, 2 for wrong options, 101 for a fault.
-/

namespace Cdcl.CommandLine
set_option autoImplicit false

/-- What is found where the formula should be. -/
inductive Source where
  | missing
  /-- The file does not hold UTF-8 text. -/
  | notText
  | text (content : String)

/-- What a run of the program leaves behind. -/
structure Report where
  code : UInt8 := 0
  output : String := ""
  errors : String := ""

def usageReport : Report := { code := 2, errors := "error: invalid arguments\n" }

def failureReport (output message : String) : Report :=
  { code := 1, output, errors := "Error: " ++ message ++ "\n" }

def faultReport (output : String) (f : Fault) : Report :=
  { code := 101, output, errors := f.message ++ "\n" }

def Options.config (o : Options) : Config :=
  { restarts := o.restarts, order := o.order, certificate := o.proof }

/-- Adds clauses until one fails; the solver remembers that. -/
def addClauses (s : Solver) : List (List Int) → Except Fault Solver
  | [] => .ok s
  | c :: cs => do
    match ← s.addClause c with
    | (.ok _, s) => addClauses s cs
    | (.error e, s) => .ok (s.note (.failed e.message))

/-- A solver for a formula, with the limits of the options. -/
def prepare (o : Options) (f : Dimacs.Formula) : Except Fault Solver := do
  let s ← Solver.create o.config
  let s ← s.newVars f.vars
  let timeLimit ← match o.timeout with
    | none => .ok none
    | some seconds => do
      let limit ← nanoseconds seconds
      .ok (some limit)
  addClauses { s with timeLimit, conflictLimit := o.conflicts } f.clauses

def modelLine (model : List Int) : String := "v " ++ " ".intercalate (model.map toString) ++ " 0\n"

/-- Checks the certificate of a refutation. -/
def certificateReport (s : Solver) : Report :=
  let output := "s UNSATISFIABLE\n"
  match s.checkCertificate with
  | .error f => faultReport output f
  | .ok (.error e) => failureReport output e.message
  | .ok (.ok ()) => { output := output ++ "c proof verified\n" }

def countReport (s : Solver) : Report :=
  match Models.count s Solver.ampleSteps with
  | .error f => faultReport "" f
  | .ok (.exact n, _) => { output := "c " ++ toString n ++ " models\n" }
  | .ok (_, _) => { output := "s UNKNOWN\n" }

/-- Looks for a model, and checks the certificate if there is none and `proof` asks for it. -/
def solveReport (s : Solver) (proof : Bool) : Report :=
  match s.solve Solver.ampleSteps [] with
  | .error f => faultReport "" f
  | .ok (.satisfiable, s) => { output := "s SATISFIABLE\n" ++ modelLine (s.model.getD []) }
  | .ok (.unsatisfiable, s) =>
    if proof then certificateReport s else { output := "s UNSATISFIABLE\n" }
  | .ok (_, _) => { output := "s UNKNOWN\n" }

/-- Decides a formula as the options ask. -/
def respond (o : Options) : Source → Report
  | .missing => failureReport "" "No such file or directory (os error 2)"
  | .notText => failureReport "" "stream did not contain valid UTF-8"
  | .text content =>
    match Dimacs.read content with
    | .error f => faultReport "" f
    | .ok (.error e) => failureReport "" e.message
    | .ok (.ok formula) =>
      match prepare o formula with
      | .error f => faultReport "" f
      | .ok s => if o.count then countReport s else solveReport s o.proof

/-- The content of a file as text. -/
def Source.ofBytes (bytes : ByteArray) : Source :=
  match String.fromUTF8? bytes with
  | some content => .text content
  | none => .notText

end Cdcl.CommandLine
