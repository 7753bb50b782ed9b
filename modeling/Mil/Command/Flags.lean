import Mil.Text.Integer

/-!
The flags of the command line. A flag is written with two dashes, and some with one dash and a
letter. A switch may be followed by `=` and a truth value; any other flag takes a value, after `=`
or as the next argument. Flags and other arguments may come in any order; nothing after `--` is a
flag.
-/

namespace Mil.Command

/-- The forms of a program that can be shown. -/
inductive Dump
  | checked
  | specialized
  | represented
  | optimized
  | sources
  | rtl
  | llvm
deriving DecidableEq

namespace Dump

def all : List Dump := [.checked, .specialized, .represented, .optimized, .sources, .rtl, .llvm]

def flag : Dump → String
  | .checked => "dmil"
  | .specialized => "dspec"
  | .represented => "drep"
  | .optimized => "dopt"
  | .sources => "dsources"
  | .rtl => "drtl"
  | .llvm => "dllvm"

def ending : Dump → String
  | .checked => ".mil"
  | .specialized => ".spec.mil"
  | .represented => ".rep.mil"
  | .optimized => ".opt.mil"
  | .sources => ".sources"
  | .rtl => ".rtl"
  | .llvm => ".ll"

end Dump

/-- What the flags of a command line say, and its other arguments. -/
structure Flags where
  dumps : List Dump
  run : Bool
  args : List Int64
  config : String
  wordSize : Option Int
  logLevel : Option String
  noOpt : Bool
  help : Bool
  version : Bool
  rest : List String

namespace Flags

def none : Flags := ⟨[], false, [], "", .none, .none, false, false, false, []⟩

/-- Asks for a form, or takes that back. -/
def setDump (d : Dump) (on : Bool) (f : Flags) : Flags :=
  { f with dumps := if on then d :: f.dumps else f.dumps.filter (· ≠ d) }

/-- What a flag does: a switch goes on or off, any other flag takes a value or refuses it. -/
inductive Action
  | switch (set : Bool → Flags → Flags)
  | valued (set : String → Flags → Option Flags)

def numbers? (text : String) : Option (List Int64) := (text.splitOn ",").mapM Text.readInt64?

def action? (name : String) : Option Action :=
  match Dump.all.find? fun d => d.flag = name with
  | some d => some (.switch (setDump d))
  | .none =>
    match name with
    | "run" => some (.switch fun on f => { f with run := on })
    | "no-opt" => some (.switch fun on f => { f with noOpt := on })
    | "no-color" => some (.switch fun _ f => f)
    | "help" => some (.switch fun on f => { f with help := on })
    | "version" => some (.switch fun on f => { f with version := on })
    | "arg" => some (.valued fun s f => (numbers? s).map fun ns => { f with args := f.args ++ ns })
    | "config" => some (.valued fun s f => some { f with config := s })
    | "word-size" =>
      some (.valued fun s f => (Text.readInt64? s).map fun n => { f with wordSize := some n.toInt })
    | "log-level" => some (.valued fun s f => some { f with logLevel := some s })
    | _ => .none

def ofLetter? (c : Char) : Option String :=
  match c with
  | 'c' => some "config"
  | 'h' => some "help"
  | 'v' => some "version"
  | _ => .none

def readBool? (s : String) : Option Bool :=
  if s ∈ ["1", "t", "T", "TRUE", "true", "True"] then some true
  else if s ∈ ["0", "f", "F", "FALSE", "false", "False"] then some false
  else .none

/-- Applies an action to a value that was given with the flag, if any, or else to the next argument;
the arguments that are left come second. -/
def setBy? (a : Action) (given : Option String) (next : List String) (f : Flags) :
    Option (Flags × List String) :=
  match a, given, next with
  | .switch set, some s, next => (readBool? s).map fun on => (set on f, next)
  | .switch set, .none, next => some (set true f, next)
  | .valued set, some s, next => (set s f).map fun f => (f, next)
  | .valued set, .none, s :: next => (set s f).map fun f => (f, next)
  | .valued _, .none, [] => .none

/-- Reads a flag with two dashes, given what follows them. -/
def long? (text : List Char) (next : List String) (f : Flags) : Option (Flags × List String) :=
  let name := text.takeWhile (· ≠ '=')
  match text.head? with
  | .none | some '-' | some '=' => .none
  | _ => do
    let a ← action? (String.ofList name)
    let given := match text.drop name.length with
      | '=' :: value => some (String.ofList value)
      | _ => .none
    setBy? a given next f

/-- Reads letters after one dash. A letter that takes a value takes the letters after it. -/
def letters? : List Char → List String → Flags → Option (Flags × List String)
  | [], next, f => some (f, next)
  | c :: cs, next, f => do
    let a ← action? (← ofLetter? c)
    match a, cs with
    | a, '=' :: v :: value => setBy? a (some (String.ofList (v :: value))) next f
    | .switch set, cs => letters? cs next (set true f)
    | .valued _, [] => setBy? a .none next f
    | .valued _, cs => setBy? a (some (String.ofList cs)) next f

/-- Reads arguments, at most `fuel` of them. -/
def parseWith : Nat → List String → Flags → Option Flags
  | 0, _, f => some f
  | _ + 1, [], f => some f
  | fuel + 1, arg :: next, f =>
    match arg.toList with
    | ['-', '-'] => some { f with rest := f.rest ++ next }
    | '-' :: '-' :: text => do
      let (f, next) ← long? text next f
      parseWith fuel next f
    | '-' :: c :: cs => do
      let (f, next) ← letters? (c :: cs) next f
      parseWith fuel next f
    | _ => parseWith fuel next { f with rest := f.rest ++ [arg] }

/-- Gives a flag that asks for a form its second dash. -/
def normalize (arg : String) : String :=
  if Dump.all.any fun d => arg = "-" ++ d.flag then "-" ++ arg else arg

def parse (args : List String) : Option Flags :=
  parseWith (args.length + 1) (args.map normalize) none

end Flags

end Mil.Command
