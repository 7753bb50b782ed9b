import Mil.Compiler
import Mil.Config.Toml
import Mil.Text.Quoted

/-!
Files of options. The format follows from the ending of the file's name. Every option may be left
out; an option that is not known, or a value out of its range, makes the file unfit.
-/

namespace Mil.Config

/-- Why a file gives no options. -/
inductive ConfigError
  | unsupportedFormat (name ending : String)
  | malformed (name : String)

/-- The message of an error, as far as the file itself decides it. -/
def ConfigError.message : ConfigError → String
  | .unsupportedFormat name ending =>
    name ++ ": unsupported config format " ++ Text.quote ending
  | .malformed name => name

namespace Datum

def record? (names : List String) : Datum → Option (List (String × Datum))
  | .table entries => if entries.all fun (k, _) => k ∈ names then some entries else none
  | _ => none

/-- The truth value that a datum is. -/
def flag? : Datum → Option Bool
  | .flag b => some b
  | _ => none

def atLeast? (least : Int) : Datum → Option Int
  | .integer n => if least ≤ n then some n else none
  | _ => none

def text? : Datum → Option String
  | .text s => some s
  | _ => none

def texts? : Datum → Option (List String)
  | .list items => items.mapM text?
  | _ => none

end Datum

/-- An option out of a table, or its default if it is left out. -/
def option {α : Type} (entries : List (String × Datum)) (name : String) (absent : α)
    (read : Datum → Option α) : Option α :=
  match entries.lookup name with
  | some d => read d
  | none => some absent

/-- The word sizes that programs are compiled for. -/
def wordSizes : List Int := [64, 32]

def logLevels : List String := ["warn", "debug", "info", "error"]

def optionsOf? (d : Datum) : Option Options := do
  let std := Options.standard
  let all ← d.record? ["word-size", "entrypoints", "log-level", "optimize", "interp"]
  let wordSize ← option all "word-size" std.wordSize fun d =>
    (d.atLeast? 0).filter fun n => n ∈ wordSizes
  let entrypoints ← option all "entrypoints" std.entrypoints Datum.texts?
  let logLevel ← option all "log-level" std.logLevel fun d => d.text?.filter fun s => s ∈ logLevels
  let opt ← option all "optimize" []
    (Datum.record? ["enabled", "max-iterations", "inline-size", "dup-table-size"])
  let enabled ← option opt "enabled" std.optimize Datum.flag?
  let rounds ← option opt "max-iterations" std.limits.rounds (Datum.atLeast? 1)
  let inlineSize ← option opt "inline-size" std.limits.inlineSize (Datum.atLeast? 0)
  let tableSize ← option opt "dup-table-size" std.limits.tableSize (Datum.atLeast? 1)
  let machine ← option all "interp" [] (Datum.record? ["fuel"])
  let fuel ← option machine "fuel" std.fuel (Datum.atLeast? 0)
  return ⟨wordSize, entrypoints, logLevel, enabled, ⟨rounds, inlineSize, tableSize⟩, fuel⟩

/-- The ending of a file's name, from its last point on; none if there is no point after the last
slash. -/
def endingOf (name : String) : String :=
  let base := (name.toList.reverse.takeWhile (· ≠ '/')).reverse
  if base.contains '.' then
    String.ofList ('.' :: (base.reverse.takeWhile (· ≠ '.')).reverse)
  else ""

def read (name text : String) : Except ConfigError Options :=
  let ending := (endingOf name).toLower
  let found :=
    if ending = ".yaml" ∨ ending = ".yml" then some (Datum.ofYaml? text)
    else if ending = ".toml" then some (Datum.ofToml? text)
    else none
  match found with
  | none => .error (.unsupportedFormat name ending)
  | some datum =>
    match datum.bind optionsOf? with
    | some o => .ok o
    | none => .error (.malformed name)

end Mil.Config
