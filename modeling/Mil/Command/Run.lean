import Mil.Command.Flags
import Mil.Compiler
import Mil.Config.Read

/-!
The command line: a program file is compiled as far as the flags ask, forms of the program are shown
and written to files beside it, and its first entrypoint may be run. All is computed from the files
that the command reads.
-/

namespace Mil.Command

abbrev Folder := List (String × String)

/-- The parts of a path, without those that stay where they are. -/
def pathParts (path : String) : List String := (path.splitOn "/").filter fun s => s ≠ "" && s ≠ "."

def Folder.read? (files : Folder) (path : String) : Option String :=
  (files.find? fun (name, _) => path ≠ "" && pathParts name = pathParts path).map Prod.snd

/-- What a command leaves: its two outputs, the files that it writes, and whether it succeeds. -/
structure Report where
  out : String
  err : String
  written : Folder
  ok : Bool

namespace Report

/-- The report of a command that has done nothing. -/
def empty : Report := ⟨"", "", [], true⟩

/-- Adds a line about an error; the command fails. -/
def error (r : Report) (tag message : String) : Report :=
  { r with err := r.err ++ "milc: " ++ tag ++ " " ++ message ++ "\n", ok := false }

/-- Adds a line that all went well. -/
def done (r : Report) (message : String) : Report :=
  { r with err := r.err ++ "ok " ++ message ++ "\n" }

def dump (r : Report) (file text : String) : Report :=
  { r with
    out := r.out ++ text
    written := r.written.filter (fun (name, _) => name ≠ file) ++ [(file, text)] }

end Report

def version : String := "0.1.0"

def help : String := "\n".intercalate
  ["milc type checks, specializes, represents and optimizes a MIL",
    "program given as YAML, and lowers it to RTL or LLVM IR. Each",
    "intermediate form can be dumped with a -dXXX flag.",
    "",
    "Usage:",
    "  milc [file] [flags]",
    "",
    "Flags:",
    "      --arg int64Slice     Word argument passed to the entrypoint by --run (default [])",
    "  -c, --config string      Options file (.yaml, .yml or .toml)",
    "      --dllvm              Dump LLVM IR",
    "      --dmil               Dump MIL after type checking",
    "      --dopt               Dump MIL after optimization",
    "      --drep               Dump MIL after representation transformation",
    "      --drtl               Dump RTL",
    "      --dsources           Dump the invariant parameter analysis",
    "      --dspec              Dump MIL after specialization",
    "  -h, --help               help for milc",
    "      --log-level string   Log level (debug, info, warn, error)",
    "      --no-color           Disable colored diagnostics",
    "      --no-opt             Skip the optimizer",
    "      --run                Interpret the first entrypoint after the last dumped MIL stage, or after optimization",
    "  -v, --version            version for milc",
    "      --word-size int      Target word size in bits (32 or 64) (default 64)",
    ""]

def missingFile (path : String) : String := "open " ++ path ++ ": no such file or directory"

/-- The options of a command: those of the options file, then what the flags say. -/
def options (files : Folder) (f : Flags) : Except String Options := do
  let base ←
    if f.config = "" then pure Options.standard
    else
      match files.read? f.config with
      | none => throw (missingFile f.config)
      | some text =>
        match Config.read f.config text with
        | .ok o => pure o
        | .error e => throw e.message
  let wordSize ← match f.wordSize with
    | none => pure base.wordSize
    | some n =>
      if n ∈ Config.wordSizes then pure n else throw ("unsupported word size " ++ toString n)
  return { base with
    wordSize
    logLevel := f.logLevel.getD base.logLevel
    optimize := base.optimize && !f.noOpt }

/-- The file that a form of a program is written to: the program's file with another ending. -/
def dumpFile (file : String) (d : Dump) : String :=
  let base := [".yaml", ".yml"].findSome? fun ending =>
    if file.endsWith ending then some (file.dropEnd ending.length).toString else none
  base.getD file ++ d.ending

/-- The stage that shows a form of the program itself. -/
def stageOf? : Dump → Option Stage
  | .checked => some .check
  | .specialized => some .specialize
  | .represented => some .represent
  | .optimized => some .optimize
  | _ => none

def formText (d : Dump) : CompileM String := do
  match d, stageOf? d with
  | .sources, _ => Compiler.sources
  | .rtl, _ => return (← Compiler.rtl).print
  | .llvm, _ => return (← Compiler.llvm).print
  | _, some s =>
    Compiler.runTo s
    Compiler.dump
  | _, none => Compiler.dump

/-- A command at work: the compilation and the report so far. -/
abbrev WorkM := ExceptT CompileError (StateM (Compiler × Report))

namespace WorkM

def compile {α : Type} (x : CompileM α) : WorkM α := do
  let (c, report) ← get
  let (r, c) := x.run c
  set (c, report)
  match r with
  | .ok a => return a
  | .error e => throw e

def report (f : Report → Report) : WorkM Unit := modify fun (c, r) => (c, f r)

def showForm (file : String) (d : Dump) : WorkM Unit := do
  let text ← compile (formText d)
  report fun r => r.dump (dumpFile file d) text

/-- Runs the first entrypoint with words as arguments. -/
def execute (args : List Int64) : WorkM Unit := do
  let (c, _) ← get
  let words := args.map fun w => Value.word (Word.normalize c.options.wordSize w)
  let (o, c) := c.exec words
  modify fun (_, r) => (c, { r with out := r.out ++ o.printed })
  match o.result with
  | .error e => throw e
  | .ok vals =>
    report fun r => { r with out := r.out ++ Value.renderAll vals ++ "\n" }
    report fun r => r.done (toString c.steps ++ " steps")

/-- Compiles a program file as far as the flags ask. -/
def all (file text : String) (f : Flags) : WorkM Unit := do
  compile (Compiler.load file text)
  let wanted := Dump.all.filter fun d => d ∈ f.dumps
  let stages := wanted.filter fun d => (stageOf? d).isSome
  stages.forM (showForm file)
  if stages.isEmpty then compile (Compiler.runTo .optimize)
  (wanted.filter fun d => (stageOf? d).isNone).forM (showForm file)
  if f.run then execute f.args
  else if wanted.isEmpty then
    let p ← compile Compiler.loaded
    report fun r =>
      r.done (file ++ ": compiled " ++ toString p.reachable.length ++ " definitions")

end WorkM

/-- Adds what is said about an error of the compilation: every failure that was reported, or the
error itself. -/
def reportError (c : Compiler) (r : Report) : CompileError → Report
  | .defect d => r.error "internal error" d.describe
  | .failures _ =>
    c.log.entries.foldl (fun r f => r.error f.kind.name (f.pos.render ++ ": " ++ f.msg)) r
  | e => r.error "error" e.message

def compileFile (files : Folder) (file : String) (o : Options) (f : Flags) : Report :=
  match files.read? file with
  | none => Report.empty.error "error" (missingFile file)
  | some text =>
    let (r, c, report) := (WorkM.all file text f).run (.new o, .empty)
    match r with
    | .ok () => report
    | .error e => reportError c report e

/-- Runs a command line. A line that cannot be read fails and says nothing. -/
def run (files : Folder) (args : List String) : Report :=
  match Flags.parse args with
  | none => { Report.empty with ok := false }
  | some f =>
    if f.help then { Report.empty with out := help }
    else if f.version then { Report.empty with out := "milc version " ++ version ++ "\n" }
    else
      match f.rest with
      | [] => { Report.empty with out := help }
      | [file] =>
        match options files f with
        | .error message => Report.empty.error "config" message
        | .ok o => compileFile files file o f
      | _ => { Report.empty with ok := false }

def filesRead (args : List String) : List String :=
  match Flags.parse args with
  | none => []
  | some f => (if f.config = "" then [] else [f.config]) ++ f.rest

end Mil.Command
