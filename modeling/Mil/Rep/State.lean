import Mil.Program.Graph
import Mil.Rep.Types

/-!
The state of a representation change and the parts that bodies share: word-level versions of
primitives, and blocks that take the place of memory accesses wider than a word. Each is made once,
when it is first needed.
-/

namespace Mil.Rep

/-- The program; the representations of types; the word-level version of each primitive by number;
the blocks for wide accesses; the implementations of externals by what they were asked for; and the
types that represent each value of the top-level definitions. -/
structure State where
  program : Program
  table : TypeTable
  prims : List (Nat × Prim)
  wide : List (PrimOp × DefnId)
  impls : List (String × DefnId)
  tops : List (DefnId × List (List Ty))

/-- Why a representation change ends early. -/
inductive Stop
  | defect (d : Defect)
  | failure (f : Failure)

/-- The program keeps what was changed before the end. -/
abbrev TransM := ExceptT Stop (StateM State)

/-- Stops because an invariant is broken. -/
def broken {α : Type} (d : Defect) : TransM α := throw (.defect d)

def onTypes {α : Type} (x : RepM α) : TransM α := do
  let s ← get
  match x.run s.table with
  | .ok (a, table) =>
    set { s with table }
    return a
  | .error e => broken e

def store : TransM Store := return (← get).program.store

def onProgram {α : Type} (f : Program → α × Program) : TransM α := do
  let s ← get
  let (a, program) := f s.program
  set { s with program }
  return a

def add (d : Defn) : TransM DefnId := onProgram (·.add d)

/-- Adds a definition that the compiler makes. -/
def addBuiltin (name : String) (body : DefnBody) : TransM DefnId := add (.new name .builtin body)

def freshTemps (types : List Ty) : TransM (List Temp) := onProgram (·.freshTemps (types.map some))

/-- The types that represent a type. -/
def repsOf (t : Ty) : TransM (List Ty) := do
  let s ← store
  onTypes (reps (s.resolve t))

/-- The types that represent the types of a list. -/
def repsOfAll (ts : List Ty) : TransM (List Ty) := do
  let s ← store
  onTypes (repsAll (ts.map s.resolve))

def blockTypeOf (b : BlockType) : TransM BlockType := do
  let s ← store
  onTypes (blockType s b)

def allocTypeOf (a : AllocType) : TransM AllocType := do
  let s ← store
  onTypes (allocType s a)

/-- The word-level version of a primitive, which is a copy if its type changes. -/
def wordPrim (p : Prim) : TransM Prim := do
  match (← get).prims.lookup p.index with
  | some q => return q
  | none =>
    let type ← blockTypeOf p.type
    let q ← if type.alphaEquiv (← store) p.type then pure p
      else onProgram fun program =>
        let (q, prims) := program.prims.clone p type
        (q, { program with prims })
    modify fun s => { s with prims := (p.index, q) :: s.prims }
    return q

abbrev Binding := List Temp × Tail

def sequence (bs : List Binding) (t : Tail) : Code :=
  bs.foldr (fun b next => .bind b.1 b.2 next) (.done t)

def primBinding (p : Prim) (args : List Atom) : TransM (Temp × Binding) := do
  match p.type.rngTypes (← store) with
  | [t] =>
    let v ← onProgram (·.freshTemp (some t))
    return (v, ([v], .prim p args (some p.type)))
  | _ => broken (.primResults p.name)

def effectBinding (p : Prim) (args : List Atom) : Binding := ([], .prim p args (some p.type))

/-- The block that loads two words: the word at the address, and the word four bytes on. -/
def loadBlock : TransM Block := do
  let load ← wordPrim (.builtin .load32)
  let a ← onProgram (·.freshTemp (some .word))
  let (lo, b₁) ← primBinding load [.temp a]
  let (next, b₂) ← primBinding (.builtin .add) [.temp a, .word 4]
  let (hi, b₃) ← primBinding load [.temp next]
  return .typed [a] (some (sequence [b₁, b₂, b₃] (.ret [.temp lo, .temp hi])))
    (.ofLists (Ty.words 1) (Ty.words 2))

/-- The block that stores two words: one at the address, and one four bytes on. -/
def storeBlock : TransM Block := do
  let store ← wordPrim (.builtin .store32)
  let a ← onProgram (·.freshTemp (some .word))
  let lo ← onProgram (·.freshTemp (some .word))
  let hi ← onProgram (·.freshTemp (some .word))
  let b₁ := effectBinding store [.temp a, .temp lo]
  let (next, b₂) ← primBinding (.builtin .add) [.temp a, .word 4]
  let b₃ := effectBinding store [.temp next, .temp hi]
  return .typed [a, lo, hi] (some (sequence [b₁, b₂, b₃] (.ret []))) (.ofLists (Ty.words 3) [])

/-- The block that takes the place of a memory access wider than a word. -/
def wideAccess (op : PrimOp) : TransM (Option (DefnId × BlockType)) := do
  if op ≠ .load64 ∧ op ≠ .store64 then return none
  let s ← get
  if s.table.size = 64 then return none
  if s.table.size ≠ 32 then broken (.noWideAccess s.table.size)
  let type : BlockType := if op = .load64 then .ofLists (Ty.words 1) (Ty.words 2)
    else .ofLists (Ty.words 3) []
  match s.wide.lookup op with
  | some id => return some (id, type)
  | none =>
    let b ← if op = .load64 then loadBlock else storeBlock
    let id ← addBuiltin op.name (.block b)
    modify fun s => { s with wide := (op, id) :: s.wide }
    return some (id, type)

end Mil.Rep
