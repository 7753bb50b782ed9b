/-!
Modules of the LLVM assembly language, as far as they are generated here: global variables, and
functions that are lists of labelled blocks. Results of instructions are named by a number that is
theirs in the function; how they are numbered in the text is decided when the module is printed.
-/

namespace Mil.Llvm

inductive IrType
  | void
  | int (bits : Nat)
  | pointer (target : IrType)
  | array (length : Nat) (elem : IrType)
  | record (fields : List IrType)
  | function (result : IrType) (params : List IrType)

namespace IrType

instance : Inhabited IrType := ⟨.void⟩

def isVoid : IrType → Bool
  | .void => true
  | _ => false

end IrType

/-- What an operand is: the result of an instruction, a parameter, a number, the address of a global
variable or of a function by its position in the module, or no definite value. -/
inductive Ref
  | result (id : Nat)
  | param (name : String)
  | const (n : Int)
  | global (index : Nat)
  | function (index : Nat)
  | undef

structure Operand where
  type : IrType
  ref : Ref

inductive BinaryOp
  | add
  | sub
  | mul
  | sdiv
  | srem
  | and
  | or
  | xor
  | shl
  | ashr
  | lshr

/-- Comparisons of two integers. -/
inductive Predicate
  | eq
  | ne
  | slt
  | sle
  | sgt
  | sge
  | ult
  | ule
  | ugt
  | uge

/-- Conversions between integers and addresses. -/
inductive Conversion
  | zext
  | trunc
  | inttoptr
  | ptrtoint

inductive Inst
  | alloca (type : IrType)
  | store (src dst : Operand)
  | load (type : IrType) (src : Operand)
  | binary (op : BinaryOp) (x y : Operand)
  | compare (pred : Predicate) (x y : Operand)
  | convert (op : Conversion) (x : Operand) (target : IrType)
  | call (isTail : Bool) (result : IrType) (callee : Operand) (args : List Operand)
  | element (type : IrType) (base : Operand) (indices : List Operand)
  | extract (aggregate : Operand) (index : Nat)
  | insert (aggregate elem : Operand) (index : Nat)

def Inst.hasResult : Inst → Bool
  | .store _ _ => false
  | .call _ t _ _ => !t.isVoid
  | _ => true

/-- The ends of blocks; blocks are named by their labels. -/
inductive Terminator
  | jump (label : String)
  | branch (cond : Operand) (ifTrue ifFalse : String)
  | switch (arg : Operand) (default : String) (cases : List (Operand × String))
  | ret (value : Option Operand)
  | unreachable

/-- A block. Each instruction stands with the number of its result. -/
structure Block where
  label : String
  insts : List (Nat × Inst)
  terminator : Terminator

/-- Who can see a symbol: other modules, this module, or this module without a symbol in the
result. -/
inductive Linkage
  | visible
  | internal
  | anonymous

/-- The first contents of a global variable. -/
inductive Contents
  | zero
  | text (s : String)

/-- A global variable; one without contents is defined elsewhere. -/
structure GlobalVar where
  name : String
  linkage : Linkage
  constant : Bool
  type : IrType
  contents : Option Contents

/-- A function; one without blocks is defined elsewhere. Parameters may have no name. -/
structure Function where
  name : String
  linkage : Linkage
  result : IrType
  params : List (String × IrType)
  blocks : List Block

def Function.addressType (f : Function) : IrType :=
  .pointer (.function f.result (f.params.map Prod.snd))

structure Module where
  globals : Array GlobalVar
  functions : Array Function

end Mil.Llvm
