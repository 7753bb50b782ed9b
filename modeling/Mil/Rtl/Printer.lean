import Mil.Rtl.Basic
import Mil.Text.Quoted

/-! The text of programs in the register transfer language. -/

namespace Mil.Rtl

def regName (r : Reg) : String := "x" ++ toString r

/-- The names of registers, with commas between them. -/
def regNames (rs : List Reg) : String := ", ".intercalate (rs.map regName)

def Chunk.name : Chunk → String
  | .int8u => "int8u"
  | .int16u => "int16u"
  | .int32 => "int32"
  | .int64 => "int64"

/-- The text of an address, given the registers of the access. -/
def Address.render (args : List Reg) : Address → String
  | .indexed offset =>
    match args with
    | [] => toString offset
    | r :: _ => regName r ++ " + " ++ toString offset
  | .global symbol offset => Text.quote symbol ++ " + " ++ toString offset

def Operation.render : Operation → String
  | .move => "move"
  | .const n => "int " ++ toString n
  | .addressOf symbol offset => "addrsymbol " ++ Text.quote symbol ++ " " ++ toString offset
  | .add => "add"
  | .addConst n => "addimm " ++ toString n
  | .neg => "neg"
  | .sub => "sub"
  | .mul => "mul"
  | .div => "div"
  | .mod => "mod"
  | .and => "and"
  | .or => "or"
  | .xor => "xor"
  | .xorConst n => "xorimm " ++ toString n
  | .not => "not"
  | .shl => "shl"
  | .shr => "shr"
  | .shru => "shru"
  | .compare c => "cmp " ++ c.sign
  | .compareUnsigned c => "cmpu " ++ c.sign

/-- The text of a test; an unsigned comparison has a `u` after its sign. -/
def Test.render (args : List Reg) : Test → String
  | .signed c =>
    match args with
    | x :: y :: _ => regName x ++ " " ++ c.sign ++ " " ++ regName y
    | _ => "cond?"
  | .unsigned c =>
    match args with
    | x :: y :: _ => regName x ++ " " ++ c.sign ++ "u " ++ regName y
    | _ => "cond?"
  | .const c n =>
    match args with
    | x :: _ => regName x ++ " " ++ c.sign ++ " " ++ toString n
    | _ => "cond?"

def Callee.render : Callee → String
  | .reg r => regName r
  | .symbol name => Text.quote name

def operands (args : List Reg) : String := "(" ++ regNames args ++ ")"

/-- The jump at the end of an instruction. -/
def goto (s : Node) : String := " goto " ++ toString s

/-- The registers that take results, if there are any. -/
def results (ds : List Reg) : String := if ds.isEmpty then "" else regNames ds ++ " = "

def Instr.render : Instr → String
  | .nop s => "nop" ++ goto s
  | .op o args d s => regName d ++ " = " ++ o.render ++ operands args ++ goto s
  | .load c a args d s => regName d ++ " = " ++ c.name ++ "[" ++ a.render args ++ "]" ++ goto s
  | .store c a args r s => c.name ++ "[" ++ a.render args ++ "] = " ++ regName r ++ goto s
  | .call fn args ds s => results ds ++ "call " ++ fn.render ++ operands args ++ goto s
  | .tailcall fn args => "tailcall " ++ fn.render ++ operands args
  | .builtin name args d s =>
    results d.toList ++ "builtin " ++ Text.quote name ++ operands args ++ goto s
  | .alloc n d s => regName d ++ " = alloc " ++ toString n ++ goto s
  | .branch t args a b => "if " ++ t.render args ++ goto a ++ " else" ++ goto b
  | .jump r targets =>
    "jumptable " ++ regName r ++ " [" ++ ", ".intercalate (targets.map toString) ++ "]"
  | .ret args => if args.isEmpty then "return" else "return " ++ regNames args
  | .abort reason => "abort " ++ Text.quote reason

def Function.print (f : Function) : String :=
  (if f.exported then "export " else "") ++ f.name ++ operands f.params ++ " : "
    ++ toString f.results ++ " \x7b\n"
    ++ String.join (f.code.map fun (n, i) => "  " ++ toString n ++ ": " ++ i.render ++ "\n")
    ++ "\x7d\nentry: " ++ toString f.entry ++ "\n"

def Global.print (g : Global) : String :=
  "var " ++ Text.quote g.name ++ "[" ++ toString g.words ++ "] init " ++ Text.quote g.init ++ "\n"

/-- The line of a layout. -/
def Layout.print (l : Layout) : String :=
  "closure " ++ Text.quote l.closure ++ " = \x7bcode " ++ Text.quote l.function ++ ", "
    ++ toString l.stored ++ " stored\x7d\n"

/-- The text of a program. -/
def Program.print (p : Program) : String :=
  let header := String.join (p.globals.map Global.print) ++ String.join (p.layouts.map Layout.print)
  (if p.globals.isEmpty && p.layouts.isEmpty then "" else header ++ "\n")
    ++ "\n".intercalate (p.functions.map Function.print)

end Mil.Rtl
