import Mil.Program.Basic
import Mil.Rtl.Basic

/-!
Functions under construction. Instructions are placed one after the other: each is put at the
current node and goes on at a new one, until one ends the path. Temporaries get registers, and
blocks that become parts of the function get nodes, when they are first met. Symbols are reserved in
the order in which they are first needed, and never twice.
-/

namespace Mil.Rtl

/-- The symbols that were given out: of definitions, of the code of closures, and all that are in
use. -/
structure Symbols where
  names : List (DefnId × String)
  codeNames : List (DefnId × String)
  used : List String

namespace Symbols

/-- The name with a number at its end; none for zero. -/
def numbered (name : String) (n : Nat) : String :=
  if n = 0 then name else name ++ "_" ++ toString n

/-- The first of the numbered forms of a name that is not in use. One more form than there are
symbols is enough. -/
def available (s : Symbols) (name : String) : String :=
  (((List.range (s.used.length + 1)).map (numbered name)).find? fun n => n ∉ s.used).getD name

/-- Gives out a symbol made from a name. -/
def reserve (s : Symbols) (name : String) : String × Symbols :=
  let found := s.available name
  (found, { s with used := found :: s.used })

/-- The name that the symbol of a definition is made from. -/
def baseName (p : Mil.Program) (id : DefnId) : String :=
  match (p.defns[id]?).map Defn.body with
  | some (.top t) => ((t.lhs.head?).map TopName.name).getD (p.nameOf id)
  | _ => p.nameOf id

def ofDefn (s : Symbols) (p : Mil.Program) (id : DefnId) : String × Symbols :=
  match s.names.lookup id with
  | some name => (name, s)
  | none =>
    let (name, s) := s.reserve (baseName p id)
    (name, { s with names := (id, name) :: s.names })

def ofCode (s : Symbols) (p : Mil.Program) (id : DefnId) : String × Symbols :=
  match s.codeNames.lookup id with
  | some name => (name, s)
  | none =>
    let (name, s) := s.ofDefn p id
    let (code, s) := s.reserve (name ++ "_code")
    (code, { s with codeNames := (id, code) :: s.codeNames })

end Symbols

/-- What the code of all functions depends on. -/
structure Setting where
  program : Mil.Program
  roots : List DefnId
  wordSize : Int
  wordBytes : Int
  chunk : Chunk

/-- A function under construction. There is no current node after the end of a path. Blocks whose
code is still to be placed wait in line. -/
structure Builder where
  symbols : Symbols
  nextNode : Node
  nextReg : Reg
  code : Graph
  labels : List (DefnId × Node)
  current : Option Node
  regs : List (Temp × Reg)
  pending : List DefnId

def Builder.new (symbols : Symbols) : Builder := ⟨symbols, 1, 1, [], [], none, [], []⟩

abbrev BuildM := ReaderT Setting (StateT Builder (Except Defect))

namespace BuildM

def freshNode : BuildM Node :=
  modifyGet fun b => (b.nextNode, { b with nextNode := b.nextNode + 1 })

def freshReg : BuildM Reg := modifyGet fun b => (b.nextReg, { b with nextReg := b.nextReg + 1 })

def freshRegs (n : Nat) : BuildM (List Reg) := (List.range n).mapM fun _ => freshReg

def startAt (n : Node) : BuildM Unit := modify fun b => { b with current := some n }

/-- Does the current path still need instructions? -/
def isOpen : BuildM Bool := return (← get).current.isSome

/-- Places an instruction and goes on at a new node. -/
def emit (make : Node → Instr) : BuildM Unit := do
  match (← get).current with
  | none => return
  | some n =>
    let next ← freshNode
    modify fun b => { b with code := b.code.insert n (make next), current := some next }

/-- Places an instruction that ends the path. -/
def terminate (i : Instr) : BuildM Unit :=
  modify fun b =>
    match b.current with
    | none => b
    | some n => { b with code := b.code.insert n i, current := none }

/-- The register of a temporary, taken when it is first bound. -/
def regOf (t : Temp) : BuildM Reg := do
  match (← get).regs.lookup t with
  | some r => return r
  | none =>
    let r ← freshReg
    modify fun b => { b with regs := (t, r) :: b.regs }
    return r

/-- The register of a temporary that must have been bound. -/
def boundReg (t : Temp) : BuildM Reg := do
  match (← get).regs.lookup t with
  | some r => return r
  | none => throw (.tempUndefined ("t" ++ toString t))

def label? (id : DefnId) : BuildM (Option Node) := return (← get).labels.lookup id

/-- Gives a block a node and lets its code wait in line. -/
def newLabel (id : DefnId) : BuildM Node := do
  let n ← freshNode
  modify fun b => { b with labels := (id, n) :: b.labels, pending := b.pending ++ [id] }
  return n

def symbol (id : DefnId) : BuildM String := do
  let p := (← read).program
  modifyGet fun b =>
    let (name, symbols) := b.symbols.ofDefn p id
    (name, { b with symbols })

def codeSymbol (id : DefnId) : BuildM String := do
  let p := (← read).program
  modifyGet fun b =>
    let (name, symbols) := b.symbols.ofCode p id
    (name, { b with symbols })

def reserve (name : String) : BuildM String :=
  modifyGet fun b =>
    let (name, symbols) := b.symbols.reserve name
    (name, { b with symbols })

/-- The definition that has taken the place of the given one. -/
def resolve (id : DefnId) : BuildM DefnId := return (← read).program.resolve id

def block (id : DefnId) : BuildM Block := do
  match (← read).program.block id with
  | .ok b => return b
  | .error e => throw e

end BuildM

end Mil.Rtl
