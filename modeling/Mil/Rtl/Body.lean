import Mil.Prim.Basic
import Mil.Rtl.Basic
import Mil.Rtl.Builder

/-!
The instructions of bodies. Closures and data values are records in memory: the address of the code,
or the number of the constructor, and then the stored values or fields. Blocks that are not roots
are placed inside the function that jumps to them.
-/

namespace Mil.Rtl

/-! ### The operation of a primitive -/

/-- The operation of a primitive on words and truth values. Truth values are the words zero and one,
so their connectives work bit by bit and their orderings are unsigned. -/
def Operation.ofPrim? : PrimOp → Option Operation
  | .not => some .not
  | .neg => some .neg
  | .and | .band => some .and
  | .or | .bor => some .or
  | .xor | .bxor => some .xor
  | .shl => some .shl
  | .lshr => some .shru
  | .ashr => some .shr
  | .add => some .add
  | .sub => some .sub
  | .mul => some .mul
  | .div | .nzdiv => some .div
  | .rem => some .mod
  | .bnot => some (.xorConst 1)
  | .beq | .eq => some (.compare .eq)
  | .neq => some (.compare .ne)
  | .blt | .ult => some (.compareUnsigned .lt)
  | .ble | .ule => some (.compareUnsigned .le)
  | .bgt | .ugt => some (.compareUnsigned .gt)
  | .bge | .uge => some (.compareUnsigned .ge)
  | .slt => some (.compare .lt)
  | .sle => some (.compare .le)
  | .sgt => some (.compare .gt)
  | .sge => some (.compare .ge)
  | .flagToWord => some .move
  | _ => none

/-! ### Bodies -/

namespace BuildM

def operation (o : Operation) (args : List Reg) (dest : Reg) : BuildM Unit := emit (.op o args dest)

def move (src dest : Reg) : BuildM Unit := operation .move [src] dest

def const (n : Int) : BuildM Reg := do
  let r ← freshReg
  operation (.const n) [] r
  return r

def wordOffset (index : Int) : BuildM Int := return index * (← read).wordBytes

def loadWord (record : Reg) (index : Int) (dest : Reg) : BuildM Unit := do
  emit (.load (← read).chunk (.indexed (← wordOffset index)) [record] dest)

def storeWord (record : Reg) (index : Int) (src : Reg) : BuildM Unit := do
  emit (.store (← read).chunk (.indexed (← wordOffset index)) [record] src)

/-- The word that a reference to a top-level value reads. -/
def topAddress (id : DefnId) (index : Nat) : BuildM Address := do
  let p := (← read).program
  let id := p.resolve id
  let offset ← wordOffset index
  match p.defn id with
  | .error e => throw e
  | .ok d =>
    match d.body with
    | .external e =>
      match e.impl with
      | none => return .global e.ref offset
      | some impl => return .global (← symbol (p.resolve impl)) offset
    | _ => return .global (← symbol id) offset

def atom (a : Atom) : BuildM Reg := do
  match a with
  | .temp t => boundReg t
  | .lit (.word w) => const (w.normalize (← read).wordSize).toInt
  | .lit (.flag b) => const (if b then 1 else 0)
  | .top id index _ =>
    let r ← freshReg
    let addr ← topAddress id index
    emit (.load (← read).chunk addr [] r)
    return r

def atoms (as : List Atom) : BuildM (List Reg) := as.mapM atom

/-- The first of the registers that take results, or a new one. -/
def firstDest (dests : List Reg) : BuildM Reg :=
  match dests with
  | d :: _ => return d
  | [] => freshReg

/-- Makes a record of a head and some words. -/
def record (head : BuildM Reg) (args : List Atom) (dests : List Reg) : BuildM Unit := do
  let words ← atoms args
  let d ← firstDest dests
  emit (.alloc (1 + words.length) d)
  let h ← head
  storeWord d 0 h
  words.zipIdx.forM fun (w, i) => storeWord d (1 + i) w

def checkDivisor (y : Reg) : BuildM Unit := do
  let bad ← freshNode
  let good ← freshNode
  terminate (.branch (.const .eq 0) [y] bad good)
  startAt bad
  terminate (.abort "divide by zero error")
  startAt good

/-- Places a load or a store of memory. -/
def access (name : String) (a : MemAccess) (args : List Reg) (dests : List Reg) : BuildM Unit := do
  if (← read).wordBytes < a.bytes then throw (.widerThanWord name)
  match Chunk.ofBytes? a.bytes, a.store, args with
  | some c, true, x :: y :: _ => emit (.store c (.indexed 0) [x] y)
  | some c, false, args =>
    let d ← firstDest dests
    emit (.load c (.indexed 0) (args.take 1) d)
  | _, _, _ => return

def primOperation (p : Prim) (args : List Reg) (dests : List Reg) : BuildM Unit := do
  match p.op.access? with
  | some a => access p.name a args dests
  | none =>
    match Operation.ofPrim? p.op with
    | some o => operation o args (← firstDest dests)
    | none => throw (.noInstruction p.name)

def prim (p : Prim) (operands : List Atom) (dests : List Reg) : BuildM Unit := do
  let args ← atoms operands
  match p.op, args with
  | .halt, _ => terminate (.abort p.name)
  | .loop, _ => terminate (.abort p.name)
  | .printWord, _ => emit (.builtin "printWord" args none)
  | .user, _ =>
    emit (.call (.symbol p.name) args dests)
    if p.doesntReturn then terminate (.abort p.name)
  | .div, [_, y] | .rem, [_, y] =>
    checkDivisor y
    primOperation p args dests
  | _, _ => primOperation p args dests

/-- Computes the results of a tail that neither calls nor enters anything. -/
def compute (t : Option Tail) (dests : List Reg) : BuildM Unit := do
  match t with
  | some (.ret args) =>
    let srcs ← atoms args
    (srcs.zip dests).forM fun (s, d) => move s d
  | some (.prim p args _) => prim p args dests
  | some (.alloc id args _) =>
    let id ← resolve id
    let head := do
      let r ← freshReg
      let s ← codeSymbol id
      operation (.addressOf s 0) [] r
      return r
    record head args dests
  | some (.data k args _) => record (const k.tag) args dests
  | some (.sel _ field arg _) =>
    let r ← atom arg
    loadWord r (1 + field) (← firstDest dests)
  | _ => throw .missingTail

/-- The code of a closure and its operands: the record first. -/
def entered (fn : Atom) (args : List Atom) : BuildM (Callee × List Reg) := do
  let record ← atom fn
  let rest ← atoms args
  let code ← freshReg
  loadWord record 0 code
  return (.reg code, record :: rest)

def bind (dests : List Reg) (t : Option Tail) : BuildM Unit := do
  match t with
  | some (.call c) =>
    let target ← resolve c.block
    let s ← symbol target
    let args ← atoms c.args
    emit (.call (.symbol s) args dests)
  | some (.enter fn args) =>
    let (code, args) ← entered fn args
    emit (.call code args dests)
  | t => compute t dests

/-- Jumps to a block: inside the function if the block is a part of it, by a tail call if it is a
function of its own. Operands are copied twice, since they may be the parameters that they go to. -/
def jump (c : BlockCall) : BuildM Unit := do
  let target ← resolve c.block
  let args ← atoms c.args
  match ← label? target, decide (target ∈ (← read).roots) with
  | none, true => terminate (.tailcall (.symbol (← symbol target)) args)
  | label, _ =>
    let node ← match label with
      | some n => pure n
      | none => newLabel target
    let params ← (← block target).params.mapM regOf
    if params.length ≠ args.length then
      throw (.jumpArity (← symbol target) args.length params.length)
    let copies ← freshRegs args.length
    (args.zip copies).forM fun (a, r) => move a r
    (copies.zip params).forM fun (r, p) => move r p
    terminate (.nop node)

/-- The number of words of a tuple type; any other type is one word. -/
def width (s : Store) (t : Ty) : Nat :=
  match (s.resolve t).elems? with
  | some ts => ts.length
  | none => 1

/-- The number of words that a tail gives that neither calls nor enters anything. -/
def resultsOf (s : Store) : Option Tail → Nat
  | some (.ret args) => args.length
  | some (.prim p _ _) => if p.doesntReturn then 0 else width s p.type.rng
  | _ => 1

def tail (t : Option Tail) : BuildM Unit := do
  match t with
  | some (.call c) => jump c
  | some (.enter fn args) =>
    let (code, args) ← entered fn args
    terminate (.tailcall code args)
  | some (.ret args) =>
    let regs ← atoms args
    terminate (.ret regs)
  | t =>
    let dests ← freshRegs (resultsOf (← read).program.store t)
    compute t dests
    if ← isOpen then terminate (.ret dests)

/-- Where a branch on a constructor goes if no alternative fits. -/
def otherwise (default : Option BlockCall) : BuildM Unit :=
  match default with
  | some c => jump c
  | none => terminate (.abort "no alternative")

/-- Gives a node to each alternative that is the first for its constructor. -/
def placeAlts (count : Nat) :
    List (Cfun × BlockCall) → List (Nat × Node) → BuildM (List (Node × BlockCall) × List (Nat × Node))
  | [], targets => return ([], targets)
  | (k, c) :: rest, targets => do
    if count ≤ k.tag ∨ (targets.lookup k.tag).isSome then placeAlts count rest targets
    else
      let n ← freshNode
      let (placed, targets) ← placeAlts count rest (targets ++ [(k.tag, n)])
      return ((n, c) :: placed, targets)

/-- Places a branch on a constructor: a jump by the constructor's number. -/
def choose (scrut : Atom) (alts : List (Cfun × BlockCall)) (default : Option BlockCall) :
    BuildM Unit := do
  let value ← atom scrut
  match alts with
  | [] => otherwise default
  | (first, _) :: _ =>
    let count := ((← read).program.env.cfunsOf first.data).length
    let tag ← freshReg
    loadWord value 0 tag
    let (placed, targets) ← placeAlts count alts []
    let tags := List.range count
    let rest ← if tags.all fun t => (targets.lookup t).isSome then pure none else some <$> freshNode
    terminate (.jump tag (tags.map fun t => (targets.lookup t).getD (rest.getD 0)))
    placed.forM fun (n, c) => do
      startAt n
      jump c
    match rest with
    | none => return
    | some n =>
      startAt n
      otherwise default

def code : Code → BuildM Unit
  | .bind vars t next => do
    let dests ← vars.mapM regOf
    bind dests (some t)
    if ← isOpen then code next
  | .done t => tail (some t)
  | .branch cond c d => do
    let r ← atom cond
    let ifSo ← freshNode
    let ifNot ← freshNode
    terminate (.branch (.const .ne 0) [r] ifSo ifNot)
    startAt ifSo
    jump c
    startAt ifNot
    jump d
  | .case scrut alts default => choose scrut alts default

/-- Places the blocks that wait in line, at most `fuel` of them. -/
def drain : Nat → BuildM Unit
  | 0 => return
  | fuel + 1 => do
    match (← get).pending with
    | [] => return
    | id :: pending =>
      modify fun b => { b with pending }
      match ← label? id, (← block id).body with
      | some n, some c =>
        startAt n
        code c
      | _, _ => pure ()
      drain fuel

/-- Places all blocks that wait in line. Each block waits at most once. -/
def drainAll : BuildM Unit := do drain ((← read).program.defns.size + 1)

end BuildM

end Mil.Rtl
