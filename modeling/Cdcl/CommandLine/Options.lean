import Cdcl.CommandLine.Number
import Cdcl.Solver.Config

/-!
# Command line options

Arguments are flags, settings with a value, and the path of a formula. A long name follows two
dashes, its value an equals sign or in the next argument. Short names follow one dash and may be
run together; the value of a short setting follows at once, after an equals sign, or in the next
argument. After `--` only paths follow. Each option may be given once, and there is exactly one
path.

`Item.ofArguments` cuts the arguments into items, and `Options.ofItems` collects them.
-/

namespace Cdcl.CommandLine
set_option autoImplicit false

/-- An option that is present or not. -/
inductive Flag where
  | proof
  | progress
  | randomOrder
  | count
deriving DecidableEq

/-- An option with a value. -/
inductive Setting where
  | timeout
  | conflicts
  | restarts
  | seed
deriving DecidableEq

/-- A part of the command line. -/
inductive Item where
  | flag (f : Flag)
  | setting (s : Setting) (value : String)
  | path (p : String)
deriving DecidableEq

def Flag.ofName? : String → Option Flag
  | "proof" => some proof
  | "progress" => some progress
  | "random-order" => some randomOrder
  | "count" => some count
  | _ => none

def Setting.ofName? : String → Option Setting
  | "timeout" => some timeout
  | "conflicts" => some conflicts
  | "restarts" => some restarts
  | "seed" => some seed
  | _ => none

/-- What the start of an argument says, and whether the next argument is needed for the rest. -/
inductive Reading where
  | complete (items : List Item)
  /-- The next argument is the value of a setting. -/
  | wantsValue (items : List Item) (s : Setting)

/-- Reads an argument without its two dashes. -/
def readLong (cs : List Char) : Option Reading :=
  let name := String.ofList (cs.takeWhile (· != '='))
  match cs.dropWhile (· != '=') with
  | [] =>
    match Flag.ofName? name, Setting.ofName? name with
    | some f, _ => some (.complete [.flag f])
    | none, some s => some (.wantsValue [] s)
    | none, none => none
  | _ :: value =>
    match Setting.ofName? name with
    | some s => some (.complete [.setting s (String.ofList value)])
    | none => none

/-- Reads an argument without its single dash. -/
def readShort : List Char → Option Reading
  | [] => some (.complete [])
  | 't' :: [] => some (.wantsValue [] .timeout)
  | 't' :: '=' :: value => some (.complete [.setting .timeout (String.ofList value)])
  | 't' :: value => some (.complete [.setting .timeout (String.ofList value)])
  | c :: cs => do
    let f ← if c = 'p' then some Flag.progress else if c = 'c' then some Flag.count else none
    match ← readShort cs with
    | .complete items => some (.complete (.flag f :: items))
    | .wantsValue items s => some (.wantsValue (.flag f :: items) s)

/-- Reads one argument, unless it is `--`. -/
def readArgument (arg : String) : Option Reading :=
  match arg.toList with
  | '-' :: '-' :: cs => readLong cs
  | '-' :: c :: cs => readShort (c :: cs)
  | _ => some (.complete [.path arg])

/-- Cuts the arguments into items. A value in an argument of its own must not start with a dash. -/
def Item.ofArguments : List String → Option (List Item)
  | [] => some []
  | arg :: args =>
    if arg = "--" then some (args.map .path)
    else
      match readArgument arg with
      | none => none
      | some (.complete items) => (Item.ofArguments args).map (items ++ ·)
      | some (.wantsValue items s) =>
        match args with
        | [] => none
        | value :: args =>
          if value.toList.head? == some '-' then none
          else (Item.ofArguments args).map fun rest => items ++ .setting s value :: rest

/-- What the command line asks for. -/
structure Options where
  /-- Keep a certificate, and check it when there is no model. -/
  proof : Bool
  /-- Show how far the check is. -/
  progress : Bool
  count : Bool
  restarts : Restart.Policy
  order : Order.Policy
  timeout : Option Float
  conflicts : Option Nat
  path : String

def restartPolicy? : String → Option Restart.Policy
  | "luby" => some (.luby 100)
  | "geometric" => some (.geometric 100 1.5)
  | "never" => some .never
  | _ => none

/-- The values that a setting is given. -/
def valuesOf (s : Setting) (items : List Item) : List String :=
  items.filterMap fun item =>
    match item with
    | .setting s' value => if s' = s then some value else none
    | _ => none

/-- Whether a flag is given; it must not be given twice. -/
def flagIn (f : Flag) (items : List Item) : Option Bool :=
  match items.count (.flag f) with
  | 0 => some false
  | 1 => some true
  | _ => none

/-- The value of a setting as `read` understands it, or the fallback; a setting must not be given
twice. -/
def settingIn {α : Type} (s : Setting) (fallback : α) (read : String → Option α)
    (items : List Item) : Option α :=
  match valuesOf s items with
  | [] => some fallback
  | [value] => read value
  | _ => none

def pathsIn (items : List Item) : List String :=
  items.filterMap fun item =>
    match item with
    | .path p => some p
    | _ => none

def Options.ofItems (items : List Item) : Option Options := do
  let proof ← flagIn .proof items
  let progress ← flagIn .progress items
  let count ← flagIn .count items
  let randomOrder ← flagIn .randomOrder items
  let restarts ← settingIn .restarts (.luby 100) restartPolicy? items
  let seed ← settingIn .seed 0 count? items
  let timeout ← settingIn .timeout none (fun v => (decimal? v).map some) items
  let conflicts ← settingIn .conflicts none (fun v => (count? v).map some) items
  match pathsIn items with
  | [path] =>
    some { proof, progress, count, restarts, timeout, conflicts, path,
           order := if randomOrder then .uniform seed else .activity }
  | _ => none

/-- Reads the command line. -/
def Options.ofArguments (args : List String) : Option Options :=
  (Item.ofArguments args).bind Options.ofItems

end Cdcl.CommandLine
