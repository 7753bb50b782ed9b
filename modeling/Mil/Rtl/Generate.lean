import Mil.Rtl.Body
import Mil.Rtl.Passes
import Mil.Rtl.Roots

/-!
The register transfer program of a program whose values are words. A block that is a root becomes a
function, with the blocks that it jumps to inside it. A closure becomes a function that takes the
closure's record and then the arguments; a top-level definition becomes a global and a function that
initialises it.
-/

namespace Mil.Rtl

namespace BuildM

/-- The finished function, without dead code and detours. -/
def finish (name : String) (params : List Reg) (results : Nat) (entry : Node) (exported : Bool) :
    BuildM Function := do
  let f : Function := ⟨name, params, results, (← get).code, entry, exported⟩
  return f.removeDead.1.tunnel

def blockFunction (id : DefnId) (d : Defn) (b : Block) : BuildM Function := do
  let params ← b.params.mapM regOf
  let entry ← newLabel id
  drainAll
  let name ← symbol id
  let s := (← read).program.store
  let results := (b.declared.map fun t => width s t.rng).getD 0
  finish name params results entry d.entry

def closureFunction (id : DefnId) (d : Defn) (k : Closure) : BuildM (Function × Layout) := do
  let record ← freshReg
  let args ← k.args.mapM regOf
  let entry ← freshNode
  startAt entry
  k.params.zipIdx.forM fun (v, i) => do
    let r ← regOf v
    loadWord record (1 + i) r
  tail k.tail
  drainAll
  let name ← codeSymbol id
  let s := (← read).program.store
  let fn? := k.declared.bind fun t => (s.resolve t.result).asFunc?
  let f ← finish name (record :: args) ((fn?.map fun (_, rng) => width s rng).getD 0) entry d.entry
  return (f, ⟨← symbol id, name, k.params.length⟩)

def topFunction (id : DefnId) (t : TopLevel) : BuildM (Function × Global) := do
  let name ← symbol id
  let init ← reserve ("init_" ++ name)
  let entry ← freshNode
  startAt entry
  let dests ← freshRegs t.lhs.length
  bind dests t.tail
  if ← isOpen then
    dests.zipIdx.forM fun (r, i) => do
      let offset ← wordOffset i
      emit (.store (← read).chunk (.global name offset) [] r)
    terminate (.ret [])
  drainAll
  return (← finish init [] 0 entry false, ⟨name, t.lhs.length, init⟩)

end BuildM

/-- Why a program has no register transfer program. -/
inductive LowerError
  | defect (d : Defect)
  | failure (f : Failure)

/-- A register transfer program under construction. -/
structure Output where
  symbols : Symbols
  globals : List Global
  layouts : List Layout
  functions : List Function

namespace Output

/-- Builds one function and takes over the symbols that it has reserved. -/
def build {α : Type} (o : Output) (cx : Setting) (x : BuildM α) : Except Defect (α × Output) := do
  let (a, b) ← (x.run cx).run (.new o.symbols)
  return (a, { o with symbols := b.symbols })

def addDefn (cx : Setting) (o : Output) (id : DefnId) : Except Defect Output := do
  let d ← cx.program.defn id
  match d.body with
  | .block b =>
    if id ∈ cx.roots then
      let (f, o) ← o.build cx (BuildM.blockFunction id d b)
      return { o with functions := o.functions ++ [f] }
    else return o
  | .closure k =>
    let ((f, l), o) ← o.build cx (BuildM.closureFunction id d k)
    return { o with functions := o.functions ++ [f], layouts := o.layouts ++ [l] }
  | .top t =>
    let ((f, g), o) ← o.build cx (BuildM.topFunction id t)
    return { o with functions := o.functions ++ [f], globals := o.globals ++ [g] }
  | .external _ => return o

end Output

def primNames : Tail → List String
  | .prim p _ _ => if p.op = .user then [p.name] else []
  | _ => []

def tails : Code → List Tail
  | .bind _ t next => t :: tails next
  | .done t => [t]
  | _ => []

/-- The names that a definition uses from outside the program: of an external, and of primitives
that are not built in. -/
def outsideNames : DefnBody → List String
  | .external e => if e.impl.isNone then [e.ref] else []
  | .block b => ((b.body.map tails).getD []).flatMap primNames
  | .closure k => (k.tail.map primNames).getD []
  | .top t => (t.tail.map primNames).getD []

end Mil.Rtl

namespace Mil.Program

open Rtl

/-- Refuses a definition that was not specialised. -/
def checkMonomorphic (p : Program) (id : DefnId) : Except LowerError Unit :=
  match p.defns[id]? with
  | none => .ok ()
  | some d =>
    if d.body.isPolymorphic then
      .error (.failure ⟨d.pos, .structural,
        "cannot generate code for polymorphic definition " ++ d.name⟩)
    else .ok ()

def toRtl (p : Program) (wordSize : Int) : Except LowerError Rtl.Program := do
  let ids := p.reachable
  ids.forM p.checkMonomorphic
  let wordBytes := wordSize.tdiv 8
  match Chunk.ofBytes? wordBytes with
  | none => throw (.defect (.noChunk wordBytes))
  | some chunk =>
    let cx : Setting := ⟨p, Roots.ofDefns p ids, wordSize, wordBytes, chunk⟩
    let outside := ids.flatMap fun id => ((p.defns[id]?).map fun d => outsideNames d.body).getD []
    let start : Output := ⟨⟨[], [], outside⟩, [], [], []⟩
    match (p.components ids).flatten.foldlM (Output.addDefn cx) start with
    | .ok o => return ⟨wordSize, o.globals, o.layouts, o.functions⟩
    | .error d => throw (.defect d)

end Mil.Program
