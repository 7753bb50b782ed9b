import Mil.Diag
import Mil.Llvm.Basic
import Mil.Rtl.Basic

/-!
Modules under construction. A symbol that the program does not define is declared when it is first
used, and a text that is needed becomes a constant of its own. In a function, each register has a
slot in memory that is made in the first block when the register is first met.
-/

namespace Mil.Llvm

/-- A module under construction: the positions of its symbols and texts, the number of words that
each function of the program gives, and the function at hand. -/
structure Builder where
  globals : Array GlobalVar
  functions : Array Function
  globalOf : List (String × Nat)
  functionOf : List (String × Nat)
  textOf : List (String × Nat)
  resultsOf : List (String × Int)
  nextResult : Nat
  slots : List (Rtl.Reg × Nat)
  entry : List (Nat × Inst)
  insts : List (Nat × Inst)

def Builder.new : Builder := ⟨#[], #[], [], [], [], [], 0, [], [], []⟩

/-- What the code of all functions depends on: the number of bits of a word. -/
structure Setting where
  bits : Nat

abbrev BuildM := ReaderT Setting (StateT Builder (Except Defect))

namespace BuildM

def wordType : BuildM IrType := return .int (← read).bits

def word (n : Int) : BuildM Operand := return ⟨← wordType, .const n⟩

/-- The type of what a function gives: nothing, a word, or a record of words. -/
def resultType (n : Int) : BuildM IrType := do
  let w ← wordType
  if n = 0 then return .void
  else if n = 1 then return w
  else return .record (List.replicate n.toNat w)

def addFunction (f : Function) : BuildM Nat :=
  modifyGet fun b =>
    let i := b.functions.size
    (i, { b with functions := b.functions.push f, functionOf := (f.name, i) :: b.functionOf })

/-- Adds a global variable. -/
def addGlobal (g : GlobalVar) : BuildM Nat :=
  modifyGet fun b => (b.globals.size, { b with globals := b.globals.push g })

def functionAt (i : Nat) : BuildM (Function × Operand) := do
  let f := ((← get).functions[i]?).getD ⟨"", .visible, .void, [], []⟩
  return (f, ⟨f.addressType, .function i⟩)

/-- The function of a symbol, declared if it is not known. -/
def external (name : String) (result : IrType) (params : List IrType) :
    BuildM (Function × Operand) := do
  match (← get).functionOf.lookup name with
  | some i => functionAt i
  | none =>
    let i ← addFunction ⟨name, .visible, result, params.map fun t => ("", t), []⟩
    functionAt i

/-- The global variable of a symbol, declared as a word if it is not known. -/
def global (name : String) : BuildM Operand := do
  let index ← match (← get).globalOf.lookup name with
    | some i => pure i
    | none =>
      let i ← addGlobal ⟨name, .visible, false, ← wordType, none⟩
      modify fun b => { b with globalOf := (name, i) :: b.globalOf }
      pure i
  let t := (((← get).globals[index]?).map GlobalVar.type).getD .void
  return ⟨.pointer t, .global index⟩

/-- The constant that holds a text with a zero at its end: its type and its address. -/
def text (s : String) : BuildM (IrType × Operand) := do
  let t : IrType := .array (s.utf8ByteSize + 1) (.int 8)
  match (← get).textOf.lookup s with
  | some i => return (t, ⟨.pointer t, .global i⟩)
  | none =>
    let name := ".str." ++ toString (← get).textOf.length
    let i ← addGlobal ⟨name, .anonymous, true, t, some (.text (s ++ "\x00"))⟩
    modify fun b => { b with textOf := (s, i) :: b.textOf }
    return (t, ⟨.pointer t, .global i⟩)

/-- Takes a number for a result. -/
def freshResult : BuildM Nat :=
  modifyGet fun b => (b.nextResult, { b with nextResult := b.nextResult + 1 })

/-- Places an instruction in the block at hand; its result has the given type. -/
def emit (i : Inst) (t : IrType) : BuildM Operand := do
  let id ← freshResult
  modify fun b => { b with insts := b.insts ++ [(id, i)] }
  return ⟨t, .result id⟩

def slot (r : Rtl.Reg) : BuildM Operand := do
  let w ← wordType
  match (← get).slots.lookup r with
  | some id => return ⟨.pointer w, .result id⟩
  | none =>
    let id ← freshResult
    modify fun b => { b with slots := (r, id) :: b.slots, entry := b.entry ++ [(id, .alloca w)] }
    return ⟨.pointer w, .result id⟩

def use (r : Rtl.Reg) : BuildM Operand := do
  let w ← wordType
  let s ← slot r
  emit (.load w s) w

def define (r : Rtl.Reg) (v : Operand) : BuildM Unit := do
  let s ← slot r
  discard (emit (.store v s) .void)

/-- Places an operation on two words. -/
def binary (op : BinaryOp) (x y : Operand) : BuildM Operand := emit (.binary op x y) x.type

def convert (op : Conversion) (x : Operand) (t : IrType) : BuildM Operand :=
  emit (.convert op x t) t

def call (isTail : Bool) (result : IrType) (callee : Operand) (args : List Operand) :
    BuildM Operand :=
  emit (.call isTail result callee args) result

end BuildM

end Mil.Llvm
