import Mil.Llvm.Generate
import Mil.Llvm.Printer
import Mil.Machine.Run
import Mil.Mono.Fill
import Mil.Optimize.Invariants
import Mil.Optimize.Rounds
import Mil.Program.Printer
import Mil.Rep.Carry
import Mil.Rtl.Generate
import Mil.Rtl.Printer
import Mil.Source.Load
import Mil.Typing.Check

/-!
A compilation, stage by stage: a program is loaded, checked, specialised, brought to words and
optimised. Each stage works on what the one before it has left, and the program can be printed or
run after any of them. An error of a stage leaves the compilation at the stage before it.
-/

namespace Mil

/-- What a compilation is told besides the program. -/
structure Options where
  wordSize : Int
  entrypoints : List String
  logLevel : String
  optimize : Bool
  limits : Optimize.Limits
  fuel : Int

/-- The options that hold where nothing else is said. -/
def Options.standard : Options := ⟨64, [], "warn", true, .standard, 1000000⟩

/-- The points of a compilation, in order. Nothing comes after the last stage: `beyond` is never
reached. -/
inductive Stage
  | none
  | load
  | check
  | specialize
  | represent
  | optimize
  | beyond
deriving DecidableEq

namespace Stage

def all : List Stage := [.none, .load, .check, .specialize, .represent, .optimize, .beyond]

def name : Stage → String
  | .none => "none"
  | .load => "load"
  | .check => "check"
  | .specialize => "specialize"
  | .represent => "reptrans"
  | .optimize => "optimize"
  | .beyond => "Stage(6)"

/-- The stages after one, up to and including another. -/
def between (start target : Stage) : List Stage :=
  (all.take (all.idxOf target + 1)).drop (all.idxOf start + 1)

end Stage

/-- Why a compilation does not get further. A failure may carry the stage in which it arose. -/
inductive CompileError
  | defect (d : Defect)
  | failures (summary : String)
  | failure (stage : Option Stage) (f : Failure)
  | noProgram
  | noEntrypoint
  | unknownStage (s : Stage)

def CompileError.message : CompileError → String
  | .defect d => d.render
  | .failures summary => Stage.check.name ++ ": " ++ summary
  | .failure (some s) f => s.name ++ ": " ++ f.render
  | .failure .none f => f.render
  | .noProgram => "no program loaded"
  | .noEntrypoint => "program has no entrypoint"
  | .unknownStage s => "unknown stage " ++ s.name

/-- A compilation. The number of steps is that of the last run of the program. -/
structure Compiler where
  options : Options
  program : Option Program
  log : FailureLog
  stage : Stage
  steps : Nat

/-- Steps of a compilation; what has changed is kept when one fails. -/
abbrev CompileM := ExceptT CompileError (StateM Compiler)

namespace Compiler

def new (options : Options) : Compiler := ⟨options, none, .empty, .none, 0⟩

def loaded : CompileM Program := do
  match (← get).program with
  | some p => return p
  | none => throw .noProgram

def setProgram (p : Program) : CompileM Unit := modify fun c => { c with program := some p }

def addEntries (p : Program) : List String → Except Failure Program
  | [] => .ok p
  | name :: names =>
    match p.lookup? name with
    | some id => addEntries (p.addEntry id) names
    | none => .error ⟨.unknown, .load, "entrypoint " ++ name ++ " is not defined"⟩

/-- Loads a program from its text. The name of the file stands in positions. -/
def load (file text : String) : CompileM Unit := do
  let names := (← get).options.entrypoints
  match Program.parse file text >>= fun p => addEntries p names with
  | .ok p => modify fun c => { c with program := some p, stage := .load }
  | .error f => throw (.failure none f)

/-- Checks the program. A failure that stops the check is reported after all others. -/
def check (p : Program) : CompileM Unit := do
  let (r, checker) := p.check.run ⟨p, (← get).log⟩
  let log := match r with
    | .error (.failure f) => checker.log.report f
    | _ => checker.log
  modify fun c => { c with program := some checker.program, log }
  match r with
  | .error (.defect d) => throw (.defect d)
  | _ =>
    match log.summary? with
    | some text => throw (.failures text)
    | none => return

def specialize (p : Program) : CompileM Unit := do
  let (r, s) := (ExceptT.run Mono.program).run (.start p)
  setProgram s.program
  match r with
  | .ok () => return
  | .error (.defect d) => throw (.defect d)
  | .error (.failure f) => throw (.failure (some .specialize) f)

def represent (p : Program) : CompileM Unit := do
  let (r, p) := p.represent (← get).options.wordSize
  setProgram p
  match r with
  | .ok () => return
  | .error (.defect d) => throw (.defect d)
  | .error (.failure f) => throw (.failure (some .represent) f)

def optimize (p : Program) : CompileM Unit := do
  let o := (← get).options
  if o.optimize then
    match p.optimize o.wordSize o.limits with
    | .ok (_, p) => setProgram p
    | .error d => throw (.defect d)

def runStage (s : Stage) : CompileM Unit := do
  let p ← loaded
  match s with
  | .check => check p
  | .specialize => specialize p
  | .represent => represent p
  | .optimize => optimize p
  | s => throw (.unknownStage s)
  modify fun c => { c with stage := s }

/-- Runs the stages that are missing up to the given one. -/
def runTo (target : Stage) : CompileM Unit := do
  let _ ← loaded
  (Stage.between (← get).stage target).forM runStage

def dump : CompileM String := return (← loaded).print

/-- The text of the analysis of parameters that stay the same, on the optimised program. -/
def sources : CompileM String := do
  runTo .optimize
  let p ← loaded
  return p.printSources p.sources

def lower : CompileM Rtl.Program := do
  match (← loaded).toRtl (← get).options.wordSize with
  | .ok r => return r
  | .error (.defect d) => throw (.defect d)
  | .error (.failure f) => throw (.failure none f)

/-- The register transfer program of the optimised program. -/
def rtl : CompileM Rtl.Program := do
  runTo .optimize
  lower

def llvm : CompileM Llvm.Module := do
  match (← rtl).toLlvm with
  | .ok m => return m
  | .error d => throw (.defect d)

/-- A run of a program: how it ended, and what it printed. -/
structure Outcome where
  result : Except CompileError (List Value)
  printed : String

/-- Runs the first entrypoint of the program as it is. -/
def exec (c : Compiler) (args : List Value) : Outcome × Compiler :=
  match c.program with
  | none => (⟨.error .noProgram, ""⟩, c)
  | some p =>
    match p.entries with
    | [] => (⟨.error .noEntrypoint, ""⟩, c)
    | id :: _ =>
      let (r, m) := (Machine.new c.options.wordSize c.options.fuel).run p id args
      let result := match r with
        | .ok vals => .ok vals
        | .error (.failure f) => .error (.failure none f)
        | .error (.defect d) => .error (.defect d)
      (⟨result, m.output⟩, { c with steps := m.steps })

end Compiler

end Mil
