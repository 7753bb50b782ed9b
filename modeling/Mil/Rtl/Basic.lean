/-!
Register transfer language. A function is a graph of instructions over any number of registers, each
of which holds a word. Instructions stand at numbered nodes and name the nodes that may come next.
-/

namespace Mil.Rtl

abbrev Node := Int

abbrev Reg := Int

/-- The width of an access to memory. -/
inductive Chunk
  | int8u
  | int16u
  | int32
  | int64
deriving DecidableEq

namespace Chunk

def bytes : Chunk → Nat
  | .int8u => 1
  | .int16u => 2
  | .int32 => 4
  | .int64 => 8

def ofBytes? (n : Int) : Option Chunk :=
  if n = 1 then some .int8u
  else if n = 2 then some .int16u
  else if n = 4 then some .int32
  else if n = 8 then some .int64
  else none

end Chunk

/-- How an access computes its address: from its first register, or from a symbol, plus an
offset. -/
inductive Address
  | indexed (offset : Int)
  | global (symbol : String) (offset : Int)
deriving DecidableEq

/-- Comparisons of two numbers. -/
inductive Comparison
  | eq
  | ne
  | lt
  | le
  | gt
  | ge
deriving DecidableEq

namespace Comparison

def all : List Comparison := [.eq, .ne, .lt, .le, .gt, .ge]

def sign : Comparison → String
  | .eq => "=="
  | .ne => "!="
  | .lt => "<"
  | .le => "<="
  | .gt => ">"
  | .ge => ">="

def negate : Comparison → Comparison
  | .eq => .ne
  | .ne => .eq
  | .lt => .ge
  | .le => .gt
  | .gt => .le
  | .ge => .lt

end Comparison

/-- Operations without effect. Comparisons give zero or one, as signed or as unsigned numbers. -/
inductive Operation
  | move
  | const (value : Int)
  | addressOf (symbol : String) (offset : Int)
  | add
  | addConst (n : Int)
  | neg
  | sub
  | mul
  | div
  | mod
  | and
  | or
  | xor
  | xorConst (n : Int)
  | not
  | shl
  | shr
  | shru
  | compare (c : Comparison)
  | compareUnsigned (c : Comparison)
deriving DecidableEq

/-- What decides a branch: a comparison of two registers, or of one with a number. -/
inductive Test
  | signed (c : Comparison)
  | unsigned (c : Comparison)
  | const (c : Comparison) (n : Int)
deriving DecidableEq

/-- What is called: the code at an address in a register, or a symbol. -/
inductive Callee
  | reg (r : Reg)
  | symbol (name : String)
deriving DecidableEq

inductive Instr
  | nop (succ : Node)
  | op (op : Operation) (args : List Reg) (dest : Reg) (succ : Node)
  | load (chunk : Chunk) (addr : Address) (args : List Reg) (dest : Reg) (succ : Node)
  | store (chunk : Chunk) (addr : Address) (args : List Reg) (src : Reg) (succ : Node)
  | call (fn : Callee) (args : List Reg) (dests : List Reg) (succ : Node)
  | tailcall (fn : Callee) (args : List Reg)
  | builtin (name : String) (args : List Reg) (dest : Option Reg) (succ : Node)
  | alloc (words : Int) (dest : Reg) (succ : Node)
  | branch (test : Test) (args : List Reg) (ifSo ifNot : Node)
  | jump (arg : Reg) (targets : List Node)
  | ret (args : List Reg)
  | abort (reason : String)
deriving DecidableEq

/-- The register that holds the code to be called. -/
def Callee.regs : Callee → List Reg
  | .reg r => [r]
  | .symbol _ => []

namespace Instr

def successors : Instr → List Node
  | .nop s => [s]
  | .op _ _ _ s => [s]
  | .load _ _ _ _ s => [s]
  | .store _ _ _ _ s => [s]
  | .call _ _ _ s => [s]
  | .tailcall _ _ => []
  | .builtin _ _ _ s => [s]
  | .alloc _ _ s => [s]
  | .branch _ _ t e => [t, e]
  | .jump _ targets => targets
  | .ret _ => []
  | .abort _ => []

/-- The instruction with every successor replaced. -/
def mapSuccessors (f : Node → Node) : Instr → Instr
  | .nop s => .nop (f s)
  | .op o args d s => .op o args d (f s)
  | .load c a args d s => .load c a args d (f s)
  | .store c a args r s => .store c a args r (f s)
  | .call fn args ds s => .call fn args ds (f s)
  | .builtin b args d s => .builtin b args d (f s)
  | .alloc n d s => .alloc n d (f s)
  | .branch t args a b => .branch t args (f a) (f b)
  | .jump r targets => .jump r (targets.map f)
  | i => i

def defs : Instr → List Reg
  | .op _ _ d _ => [d]
  | .load _ _ _ d _ => [d]
  | .call _ _ ds _ => ds
  | .builtin _ _ d _ => d.toList
  | .alloc _ d _ => [d]
  | _ => []

/-- The registers that an instruction reads. -/
def uses : Instr → List Reg
  | .op _ args _ _ => args
  | .load _ _ args _ _ => args
  | .store _ _ args src _ => args ++ [src]
  | .call fn args _ _ => args ++ fn.regs
  | .tailcall fn args => args ++ fn.regs
  | .builtin _ args _ _ => args
  | .branch _ args _ _ => args
  | .jump r _ => [r]
  | .ret args => args
  | _ => []

end Instr

/-- The instructions of a function, by increasing node. -/
abbrev Graph := List (Node × Instr)

/-- Puts an instruction at a node, in the place of any that stood there. -/
def Graph.insert (g : Graph) (n : Node) (i : Instr) : Graph :=
  match g with
  | [] => [(n, i)]
  | (m, j) :: rest =>
    if m < n then (m, j) :: Graph.insert rest n i
    else if m = n then (n, i) :: rest
    else (n, i) :: (m, j) :: rest

structure Function where
  name : String
  params : List Reg
  results : Int
  code : Graph
  entry : Node
  exported : Bool

/-- The record of a closure: the address of its code and then each stored value. -/
structure Layout where
  closure : String
  function : String
  stored : Int

/-- The number of words of a record. -/
def Layout.words (l : Layout) : Int := 1 + l.stored

/-- Words outside all functions, set by an initialisation function. -/
structure Global where
  name : String
  words : Int
  init : String

structure Program where
  wordSize : Int
  globals : List Global
  layouts : List Layout
  functions : List Function

def Program.function? (p : Program) (name : String) : Option Function :=
  p.functions.find? fun f => f.name = name

end Mil.Rtl
