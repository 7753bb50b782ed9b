import Mil.Llvm.Builder

/-!
The module of a register transfer program. Every instruction becomes a block that loads its
registers from their slots, computes, and stores the results. Addresses are carried as words and
converted where memory is accessed. A last function calls the functions that initialise the globals,
in order.
-/

namespace Mil.Llvm

def allocRoutine : String := "mil_alloc"

/-- The routine that stops the program with a message. -/
def abortRoutine : String := "mil_abort"

def initRoutine : String := "mil_init"

def signedPredicate : Rtl.Comparison → Predicate
  | .eq => .eq
  | .ne => .ne
  | .lt => .slt
  | .le => .sle
  | .gt => .sgt
  | .ge => .sge

def unsignedPredicate : Rtl.Comparison → Predicate
  | .eq => .eq
  | .ne => .ne
  | .lt => .ult
  | .le => .ule
  | .gt => .ugt
  | .ge => .uge

def nodeLabel (n : Rtl.Node) : String := "n" ++ toString n

namespace BuildM

/-- The label of a node that must have an instruction. -/
def target (f : Rtl.Function) (n : Rtl.Node) : BuildM String :=
  match f.code.lookup n with
  | some _ => return nodeLabel n
  | none => throw (.missingNode f.name n)

def compareWords (pred : Predicate) (x y : Operand) : BuildM Operand := do
  let bit ← emit (.compare pred x y) (.int 1)
  convert .zext bit (← wordType)

/-- A shift; the number of places is cut to the word size. -/
def shift (op : BinaryOp) (x y : Operand) : BuildM Operand := do
  let places ← binary .and y (← word ((← read).bits - 1))
  binary op x places

def symbolAddress (name : String) (offset : Int) : BuildM Operand := do
  let symbol ← match (← get).functionOf.lookup name with
    | some i => pure (← functionAt i).2
    | none => global name
  let base ← convert .ptrtoint symbol (← wordType)
  if offset = 0 then return base else binary .add base (← word offset)

/-- Computes an operation on operands that were loaded. -/
def operation (o : Rtl.Operation) (args : List Operand) : BuildM Operand := do
  let zero ← word 0
  let x := (args[0]?).getD zero
  let y := (args[1]?).getD zero
  match o with
  | .move => return x
  | .const n => word n
  | .addressOf name offset => symbolAddress name offset
  | .add => binary .add x y
  | .addConst n => binary .add x (← word n)
  | .neg => binary .sub zero x
  | .sub => binary .sub x y
  | .mul => binary .mul x y
  | .div => binary .sdiv x y
  | .mod => binary .srem x y
  | .and => binary .and x y
  | .or => binary .or x y
  | .xor => binary .xor x y
  | .xorConst n => binary .xor x (← word n)
  | .not => binary .xor x (← word (-1))
  | .shl => shift .shl x y
  | .shr => shift .ashr x y
  | .shru => shift .lshr x y
  | .compare c => compareWords (signedPredicate c) x y
  | .compareUnsigned c => compareWords (unsignedPredicate c) x y

/-- The address of an access as a word. -/
def address (a : Rtl.Address) (args : List Rtl.Reg) : BuildM Operand := do
  let (base, offset) ← match a with
    | .indexed offset => do
      let base ← match args with
        | r :: _ => use r
        | [] => word 0
      pure (base, offset)
    | .global name offset => do
      let symbol ← global name
      pure (← convert .ptrtoint symbol (← wordType), offset)
  if offset = 0 then return base else binary .add base (← word offset)

/-- The address of an access as a pointer, and the type and number of bits of what it moves. -/
def accessed (c : Rtl.Chunk) (a : Rtl.Address) (args : List Rtl.Reg) :
    BuildM (Operand × IrType × Nat) := do
  let bits := 8 * c.bytes
  let place ← address a args
  return (← convert .inttoptr place (.pointer (.int bits)), .int bits, bits)

def callee (fn : Rtl.Callee) (args : Nat) (results : Int) : BuildM (IrType × Operand) := do
  let result ← resultType results
  let params := List.replicate args (← wordType)
  match fn with
  | .symbol name =>
    let (f, o) ← external name result params
    return (f.result, o)
  | .reg r =>
    let code ← use r
    return (result, ← convert .inttoptr code (.pointer (.function result params)))

def storeResults (value : Operand) (dests : List Rtl.Reg) : BuildM Unit := do
  match dests with
  | [] => return
  | [d] => define d value
  | dests =>
    let w ← wordType
    dests.zipIdx.forM fun (d, i) => do
      let v ← emit (.extract value i) w
      define d v

/-- The values that a function returns, as one. -/
def returned (vs : List Operand) : BuildM (Option Operand) := do
  match vs with
  | [] => return none
  | [v] => return some v
  | vs =>
    let t ← resultType vs.length
    let whole ← vs.zipIdx.foldlM (fun agg (v, i) => emit (.insert agg v i) t) ⟨t, .undef⟩
    return some whole

/-- The truth value that decides a branch. -/
def condition (t : Rtl.Test) (args : List Rtl.Reg) : BuildM Operand := do
  match t, args with
  | .signed c, x :: y :: _ => do
    let x ← use x
    emit (.compare (signedPredicate c) x (← use y)) (.int 1)
  | .unsigned c, x :: y :: _ => do
    let x ← use x
    emit (.compare (unsignedPredicate c) x (← use y)) (.int 1)
  | .const c n, x :: _ => do
    let x ← use x
    emit (.compare (signedPredicate c) x (← word n)) (.int 1)
  | _, _ => word 0

/-- Calls a function in place of the one at hand. -/
def tailCall (f : Rtl.Function) (fn : Rtl.Callee) (args : List Rtl.Reg) : BuildM Terminator := do
  match fn with
  | .symbol name =>
    match (← get).resultsOf.lookup name with
    | some m => if m ≠ f.results then throw (.tailResultMismatch f.name name m f.results)
    | none => pure ()
  | .reg _ => pure ()
  let (t, target) ← callee fn args.length f.results
  let values ← args.mapM use
  let r ← call true t target values
  return .ret (if f.results = 0 then none else some r)

/-- Places an instruction; how its block ends comes out. -/
def instruction (f : Rtl.Function) (i : Rtl.Instr) : BuildM Terminator := do
  let w ← wordType
  match i with
  | .nop s => return .jump (← target f s)
  | .op o args d s =>
    let values ← args.mapM use
    let v ← operation o values
    define d v
    return .jump (← target f s)
  | .load c a args d s =>
    let (ptr, t, bits) ← accessed c a args
    let v ← emit (.load t ptr) t
    let v ← if bits < (← read).bits then convert .zext v w else pure v
    define d v
    return .jump (← target f s)
  | .store c a args src s =>
    let (ptr, t, bits) ← accessed c a args
    let v ← use src
    let v ← if bits < (← read).bits then convert .trunc v t else pure v
    discard (emit (.store v ptr) .void)
    return .jump (← target f s)
  | .call fn args ds s =>
    let (t, code) ← callee fn args.length ds.length
    let values ← args.mapM use
    let r ← call false t code values
    storeResults r ds
    return .jump (← target f s)
  | .tailcall fn args => tailCall f fn args
  | .builtin name args d s =>
    let values ← args.mapM use
    let (g, code) ← external name (if d.isSome then w else .void) (values.map fun _ => w)
    let r ← call false g.result code values
    storeResults r d.toList
    return .jump (← target f s)
  | .alloc words d s =>
    let (g, code) ← external allocRoutine (.pointer (.int 8)) [w]
    let size ← word (words * ((← read).bits / 8 : Nat))
    let ptr ← call false g.result code [size]
    let v ← convert .ptrtoint ptr w
    define d v
    return .jump (← target f s)
  | .branch t args a b =>
    let c ← condition t args
    return .branch c (← target f a) (← target f b)
  | .jump r targets =>
    let labels ← targets.mapM (target f)
    match labels.getLast? with
    | none => return .unreachable
    | some last =>
      let v ← use r
      return .switch v last
        (labels.dropLast.zipIdx.map fun (l, i) => (⟨w, .const i⟩, l))
  | .ret args =>
    let values ← args.mapM use
    return .ret (← returned values)
  | .abort reason =>
    let (t, message) ← text reason
    let zero : Operand := ⟨.int 32, .const 0⟩
    let ptr ← emit (.element t message [zero, zero]) (.pointer (.int 8))
    let (g, code) ← external abortRoutine .void [.pointer (.int 8)]
    discard (call false g.result code [ptr])
    return .unreachable

def node (f : Rtl.Function) (n : Rtl.Node) (i : Rtl.Instr) : BuildM Block := do
  modify fun b => { b with insts := [] }
  let t ← instruction f i
  return ⟨nodeLabel n, (← get).insts, t⟩

def storeParam (r : Rtl.Reg) (name : String) : BuildM Unit := do
  let s ← slot r
  let id ← freshResult
  let w ← wordType
  modify fun b => { b with entry := b.entry ++ [(id, .store ⟨w, .param name⟩ s)] }

/-- The name of the parameter that a register arrives in. -/
def paramName (r : Rtl.Reg) : String := "x" ++ toString r

/-- Places the blocks of a function; of two functions of one name the last one declared takes
them. -/
def body (f : Rtl.Function) : BuildM Unit := do
  modify fun b => { b with slots := [], entry := [], insts := [] }
  let index := ((← get).functionOf.lookup f.name).getD 0
  let (declared, _) ← functionAt index
  (f.params.zip declared.params).forM fun (r, name, _) => storeParam r name
  let start ← target f f.entry
  let blocks ← f.code.mapM fun (n, i) => node f n i
  let first : Block := ⟨"entry", (← get).entry, .jump start⟩
  modify fun b => { b with
    functions := b.functions.modify index fun g => { g with blocks := g.blocks ++ first :: blocks } }

def declareGlobal (g : Rtl.Global) : BuildM Unit := do
  let t : IrType := .array (g.words % 0x10000000000000000).toNat (← wordType)
  let i ← addGlobal ⟨g.name, .internal, false, t, some .zero⟩
  modify fun b => { b with globalOf := (g.name, i) :: b.globalOf }

def declareFunction (f : Rtl.Function) : BuildM Unit := do
  let w ← wordType
  let result ← resultType f.results
  discard (addFunction ⟨f.name, if f.exported then .visible else .internal, result,
    f.params.map fun r => (paramName r, w), []⟩)
  modify fun b => { b with resultsOf := (f.name, f.results) :: b.resultsOf }

/-- The function that calls the initialisation of each global. -/
def initFunction (p : Rtl.Program) : BuildM Unit := do
  modify fun b => { b with insts := [] }
  p.globals.forM fun g => do
    match (← get).functionOf.lookup g.init with
    | none => return
    | some i =>
      let (f, code) ← functionAt i
      discard (call false f.result code [])
  let first : Block := ⟨"entry", (← get).insts, .ret none⟩
  discard (addFunction ⟨initRoutine, .visible, .void, [], [first]⟩)

def program (p : Rtl.Program) : BuildM Unit := do
  p.globals.forM declareGlobal
  p.functions.forM declareFunction
  p.functions.forM body
  initFunction p

end BuildM

end Mil.Llvm

/-- The module of a register transfer program. Words have thirty-two or sixty-four bits. -/
def Mil.Rtl.Program.toLlvm (p : Mil.Rtl.Program) : Except Mil.Defect Mil.Llvm.Module := do
  let setting : Mil.Llvm.Setting := ⟨if p.wordSize = 32 then 32 else 64⟩
  let (_, b) ← ((Mil.Llvm.BuildM.program p).run setting).run .new
  return ⟨b.globals, b.functions⟩
