import Mil.Program.Graph

/-!
Passes over a program. A pass changes definitions one after the other, may add new ones, and counts
its changes. A program whose references do not fit together stops a pass.
-/

namespace Mil.Optimize

/-- The progress of a pass. -/
structure Progress where
  program : Program
  changes : Nat

abbrev PassM := StateT Progress (Except Defect)

namespace PassM

def changed : PassM Unit := modify fun s => { s with changes := s.changes + 1 }

/-- Gives a result that counts as a change. -/
def change {α : Type} (a : α) : PassM α := do
  changed
  return a

def onProgram {α : Type} (f : Program → α × Program) : PassM α :=
  modifyGet fun s =>
    let (a, program) := f s.program
    (a, { s with program })

def freshTemps (types : List (Option Ty)) : PassM (List Temp) := onProgram (·.freshTemps types)

/-- Appends a definition. -/
def add (d : Defn) : PassM DefnId := onProgram (·.add d)

def definition (id : DefnId) : PassM Defn := do
  match (← get).program.defn id with
  | .ok d => return d
  | .error e => throw e

def block (id : DefnId) : PassM Block := do
  match (← get).program.block id with
  | .ok b => return b
  | .error e => throw e

def closure (id : DefnId) : PassM Closure := do
  match (← get).program.closure id with
  | .ok k => return k
  | .error e => throw e

/-- Puts another body at a position. -/
def setBody (id : DefnId) (body : DefnBody) : PassM Unit :=
  onProgram fun p => ((), p.setBody id body)

/-- Changes the body of a block, and the tail of any other definition. -/
def onBody (code : Code → PassM Code) (tail : Tail → PassM Tail) (id : DefnId) : PassM Unit := do
  match (← definition id).body with
  | .block b => do
    match b.body with
    | none => return
    | some c =>
      let c ← code c
      setBody id (.block { b with body := some c })
  | .closure k => do
    match k.tail with
    | none => return
    | some t =>
      let t ← tail t
      setBody id (.closure { k with tail := some t })
  | .top d => do
    match d.tail with
    | none => return
    | some t =>
      let t ← tail t
      setBody id (.top { d with tail := some t })
  | .external _ => return

/-- Runs a pass: whether anything was changed, and the program after it. -/
def run (x : PassM Unit) (p : Program) : Except Defect (Bool × Program) :=
  (StateT.run x ⟨p, 0⟩).map fun (_, s) => (0 < s.changes, s.program)

end PassM

end Mil.Optimize
