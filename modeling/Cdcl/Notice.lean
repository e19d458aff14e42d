import Cdcl.Resolution.Event
import Cdcl.Statistics

/-!
# Notices

A `Notice` is something worth telling while formulas are read, searched and checked. Each has a
`severity` and a `text`.
-/

namespace Cdcl
set_option autoImplicit false

/-- How much detail a notice carries. -/
inductive Severity where
  | warn
  | info
  | debug
  | trace
deriving DecidableEq

namespace Severity

/-- Later severities carry more detail. -/
def rank : Severity → Nat
  | warn => 0
  | info => 1
  | debug => 2
  | trace => 3

def label : Severity → String
  | warn => "WARN"
  | info => "INFO"
  | debug => "DEBUG"
  | trace => "TRACE"

end Severity

/-- Something worth telling. -/
inductive Notice where
  /-- A formula is about to be read. -/
  | reading
  /-- The header of a formula announces its size. -/
  | announced (vars clauses : Nat)
  /-- The announced number of clauses is not the one that was read. -/
  | miscounted (announced found : Nat)
  | assigned (l : Literal) (level : Nat)
  | deciding (l : Literal) (level : Nat)
  | activitiesRescaled
  | rootRecorded (id : ClauseId) (literals : List Literal)
  | chainRecorded (id start : ClauseId) (steps : Nat)
  | emptyDerived (id : ClauseId)
  /-- A clause without a literal that can hold was added. -/
  | contradictoryClause (literals : List Literal)
  /-- A constraint was added that is stored already. -/
  | duplicate (literals : List Literal) (stored : ClauseRef)
  /-- A constraint left the store. -/
  | removed (c : ClauseRef)
  | reduced (before after : Nat)
  | simplified (count : Nat)
  | learnt (literals : List Literal) (level : Nat)
  /-- The formula refutes an assumption. -/
  | assumptionFails (l : Literal)
  | rootConflict
  /-- Nothing is left to search for. -/
  | knownUnsatisfiable
  | solving (vars constraints assumptions : Nat)
  | restarted (restarts conflicts learnts constraints vars : Nat)
  | satisfiable
  | unsatisfiable
  /-- A search was given up, or an addition failed. -/
  | failed (reason : String)
  | counted (s : Statistics)
  | modelFound (count : Nat)
  | checking (goal : ClauseId)
  /-- A replay ended with the empty clause. -/
  | refutationChecked

namespace Notice

/-- How much detail a notice carries. -/
def severity : Notice → Severity
  | miscounted .. | duplicate .. => .warn
  | reading | announced .. | rootConflict | knownUnsatisfiable | solving .. | restarted ..
  | satisfiable | unsatisfiable | failed .. | counted .. | checking .. | refutationChecked => .info
  | emptyDerived .. | contradictoryClause .. | reduced .. | simplified .. | learnt ..
  | assumptionFails .. => .debug
  | assigned .. | deciding .. | activitiesRescaled | rootRecorded .. | chainRecorded ..
  | removed .. | modelFound .. => .trace

def text : Notice → String
  | reading => "parsing cnf"
  | announced vars clauses => toString vars ++ " variables and " ++ toString clauses ++ " clauses"
  | miscounted clauses found =>
    "header announces " ++ toString clauses ++ " clauses but " ++ toString found ++ " were read"
  | assigned l level => "assign " ++ l.text ++ " at level " ++ toString level
  | deciding l level => "decide " ++ l.text ++ " at level " ++ toString level
  | activitiesRescaled => "rescaled variable activities"
  | rootRecorded id ls =>
    "root " ++ ClauseId.text id ++ " = [" ++ ", ".intercalate (ls.map Literal.text) ++ "]"
  | chainRecorded id start steps =>
    "chain " ++ ClauseId.text id ++ " from " ++ ClauseId.text start ++ " over " ++ toString steps ++
      " steps"
  | emptyDerived id => "derived the empty clause as " ++ ClauseId.text id
  | contradictoryClause ls => "clause " ++ Literal.joined ls ++ " is a contradiction"
  | duplicate ls stored =>
    "constraint " ++ Literal.joined ls ++ " is already stored as " ++ stored.text
  | removed c => "removed " ++ c.text
  | reduced before after =>
    "reduced learnt clauses from " ++ toString before ++ " to " ++ toString after
  | simplified count => "removed " ++ toString count ++ " constraints satisfied at level 0"
  | learnt ls level =>
    "learnt " ++ Literal.joined ls ++ " with backtrack level " ++ toString level
  | assumptionFails l => "assumption " ++ l.text ++ " does not hold"
  | rootConflict => "conflict at level 0, the formula is unsatisfiable"
  | knownUnsatisfiable => "the formula is known to be unsatisfiable"
  | solving vars constraints assumptions =>
    "solving " ++ toString vars ++ " variables, " ++ toString constraints ++ " constraints, " ++
      toString assumptions ++ " assumptions"
  | restarted restarts conflicts learnts constraints vars =>
    "restart " ++ toString restarts ++ ": " ++ toString conflicts ++ " conflicts, " ++
      toString learnts ++ " learnts, " ++ toString constraints ++ " constraints, " ++
      toString vars ++ " variables"
  | satisfiable => "satisfiable"
  | unsatisfiable => "unsatisfiable"
  | failed reason => reason
  | counted s => s.text
  | modelFound count => "found model " ++ toString count
  | checking goal => "checking proof up to " ++ ClauseId.text goal
  | refutationChecked => "final clause: <empty>"

def labelled (n : Notice) : String := n.severity.label ++ " " ++ n.text

/-- The labelled notices that are no more detailed than the given severity. -/
def upTo (s : Severity) (ns : List Notice) : List String :=
  (ns.filter fun n => n.severity.rank ≤ s.rank).map labelled

/-- The notice of a record in a certificate; deletions go without one. -/
def ofEvent : Event → Option Notice
  | .root id ls => some (.rootRecorded id ls)
  | .chain id start steps => some (.chainRecorded id start steps.length)
  | .deleted _ => none

/-- The notices of a replay up to the given clause. -/
def ofCheck (goal : Option ClauseId) (passed : Bool) : List Notice :=
  match goal with
  | none => []
  | some id => .checking id :: if passed then [.refutationChecked] else []

end Notice
end Cdcl
