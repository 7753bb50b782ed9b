import Mil.Ty.Scheme

/-!
Primitives. Each built-in operation has a name, a purity and a block type. A primitive of a program
is an operation at a type; the table numbers primitives in the order in which they were registered,
so that copies at other types have numbers of their own. A program may declare primitives that have
no built-in behaviour.
-/

namespace Mil

/-- How strong the effects of a primitive are, weakest first. -/
inductive Purity
  | pure
  | observer
  | volatile
  | impure
  | doesntReturn
deriving DecidableEq

namespace Purity

def all : List Purity := [.pure, .observer, .volatile, .impure, .doesntReturn]

def name : Purity → String
  | .pure => "pure"
  | .observer => "observer"
  | .volatile => "volatile"
  | .impure => "impure"
  | .doesntReturn => "doesntReturn"

def ofName? (s : String) : Option Purity := all.find? fun p => p.name = s

def rank : Purity → Nat
  | .pure => 0
  | .observer => 1
  | .volatile => 2
  | .impure => 3
  | .doesntReturn => 4

end Purity

inductive PrimOp
  | user
  | not
  | neg
  | and
  | or
  | xor
  | shl
  | lshr
  | ashr
  | add
  | sub
  | mul
  | div
  | rem
  | nzdiv
  | bnot
  | band
  | bor
  | bxor
  | beq
  | blt
  | ble
  | bgt
  | bge
  | eq
  | neq
  | slt
  | sle
  | sgt
  | sge
  | ult
  | ule
  | ugt
  | uge
  | flagToWord
  | halt
  | loop
  | printWord
  | load8
  | load16
  | load32
  | load64
  | store8
  | store16
  | store32
  | store64
deriving DecidableEq

/-- A load or store: the number of bytes it moves, and whether it writes them. -/
structure MemAccess where
  bytes : Nat
  store : Bool

namespace PrimOp

/-- The built-in operations, in the order of their numbers. -/
def builtins : List PrimOp :=
  [.not, .neg, .and, .or, .xor, .shl, .lshr, .ashr, .add, .sub, .mul, .div, .rem, .nzdiv, .bnot,
    .band, .bor, .bxor, .beq, .blt, .ble, .bgt, .bge, .eq, .neq, .slt, .sle, .sgt, .sge, .ult, .ule,
    .ugt, .uge, .flagToWord, .halt, .loop, .printWord, .load8, .load16, .load32, .load64, .store8,
    .store16, .store32, .store64]

def name : PrimOp → String
  | .user => ""
  | .not => "not"
  | .neg => "neg"
  | .and => "and"
  | .or => "or"
  | .xor => "xor"
  | .shl => "shl"
  | .lshr => "lshr"
  | .ashr => "ashr"
  | .add => "add"
  | .sub => "sub"
  | .mul => "mul"
  | .div => "div"
  | .rem => "rem"
  | .nzdiv => "nzdiv"
  | .bnot => "bnot"
  | .band => "band"
  | .bor => "bor"
  | .bxor => "bxor"
  | .beq => "beq"
  | .blt => "blt"
  | .ble => "ble"
  | .bgt => "bgt"
  | .bge => "bge"
  | .eq => "primEq"
  | .neq => "primNeq"
  | .slt => "primSlt"
  | .sle => "primSle"
  | .sgt => "primSgt"
  | .sge => "primSge"
  | .ult => "primUlt"
  | .ule => "primUle"
  | .ugt => "primUgt"
  | .uge => "primUge"
  | .flagToWord => "flagToWord"
  | .halt => "halt"
  | .loop => "loop"
  | .printWord => "printWord"
  | .load8 => "load8"
  | .load16 => "load16"
  | .load32 => "load32"
  | .load64 => "load64"
  | .store8 => "store8"
  | .store16 => "store16"
  | .store32 => "store32"
  | .store64 => "store64"

def access? : PrimOp → Option MemAccess
  | .load8 => some ⟨1, false⟩
  | .load16 => some ⟨2, false⟩
  | .load32 => some ⟨4, false⟩
  | .load64 => some ⟨8, false⟩
  | .store8 => some ⟨1, true⟩
  | .store16 => some ⟨2, true⟩
  | .store32 => some ⟨4, true⟩
  | .store64 => some ⟨8, true⟩
  | _ => none

/-- The purity of a built-in operation. Division may fail and memory may change, so neither can be
moved; halting and looping never come back. -/
def purity (op : PrimOp) : Purity :=
  match op with
  | .div | .rem | .printWord => .impure
  | .halt | .loop => .doesntReturn
  | op => if op.access?.isSome then .impure else .pure

/-- The type of a built-in operation. What never comes back has every range. -/
def type (op : PrimOp) : BlockType :=
  match op with
  | .not | .neg => .ofLists [Ty.word] [Ty.word]
  | .bnot => .ofLists [Ty.flag] [Ty.flag]
  | .band | .bor | .bxor | .beq | .blt | .ble | .bgt | .bge =>
    .ofLists [Ty.flag, Ty.flag] [Ty.flag]
  | .eq | .neq | .slt | .sle | .sgt | .sge | .ult | .ule | .ugt | .uge =>
    .ofLists [Ty.word, Ty.word] [Ty.flag]
  | .nzdiv => .ofLists [Ty.word, Ty.nzword] [Ty.word]
  | .flagToWord => .ofLists [Ty.flag] [Ty.word]
  | .halt | .loop => ⟨[.tuple], .tuple [], .gen 0⟩
  | .printWord => .ofLists [Ty.word] []
  | op =>
    match op.access? with
    | some ⟨bytes, false⟩ => .ofLists [Ty.addr] [Ty.bits (8 * bytes)]
    | some ⟨bytes, true⟩ => .ofLists [Ty.addr, Ty.bits (8 * bytes)] []
    | none => .ofLists [Ty.word, Ty.word] [Ty.word]

/-- The operation whose result is the negation of this one's, on the same operands. -/
def dual? : PrimOp → Option PrimOp
  | .bxor => some .beq
  | .beq => some .bxor
  | .blt => some .bge
  | .ble => some .bgt
  | .bgt => some .ble
  | .bge => some .blt
  | .eq => some .neq
  | .neq => some .eq
  | .slt => some .sge
  | .sle => some .sgt
  | .sgt => some .sle
  | .sge => some .slt
  | .ult => some .uge
  | .ule => some .ugt
  | .ugt => some .ule
  | .uge => some .ult
  | _ => none

end PrimOp

structure Prim where
  index : Nat
  name : String
  purity : Purity
  type : BlockType
  op : PrimOp

namespace Prim

/-- Primitives of one program have different numbers, so the number tells them apart. -/
instance : BEq Prim := ⟨fun p q => p.index == q.index⟩

def builtin (op : PrimOp) : Prim :=
  ⟨PrimOp.builtins.idxOf op, op.name, op.purity, op.type, op⟩

/-- May a call be made twice, or one result be used for two calls? -/
def isRepeatable (p : Prim) : Bool := p.purity.rank ≤ Purity.observer.rank

def hasNoEffect (p : Prim) : Bool := p.purity.rank ≤ Purity.volatile.rank

/-- Does a call never come back? -/
def doesntReturn (p : Prim) : Bool := p.purity = .doesntReturn

/-- The primitive that gives the negated result on the same operands. -/
def dual? (p : Prim) : Option Prim := p.op.dual?.map builtin

end Prim

/-- The primitives of a program, in the order of their numbers. -/
structure PrimTable where
  prims : Array Prim

namespace PrimTable

def builtins : PrimTable := ⟨(PrimOp.builtins.map Prim.builtin).toArray⟩

/-- The primitive that was registered first under a name. -/
def find? (t : PrimTable) (name : String) : Option Prim :=
  t.prims.find? fun p => p.name = name

/-- Registers a primitive that a program declares, unless the name is taken. -/
def declare? (t : PrimTable) (name : String) (purity : Purity) (type : BlockType) :
    Option PrimTable :=
  if (t.find? name).isSome then none
  else some ⟨t.prims.push ⟨t.prims.size, name, purity, type, .user⟩⟩

def clone (t : PrimTable) (p : Prim) (type : BlockType) : Prim × PrimTable :=
  let q := { p with index := t.prims.size, type }
  (q, ⟨t.prims.push q⟩)

end PrimTable

end Mil
