import Mil.Llvm.Basic
import Mil.Text.Integer
import Mil.Text.Quoted

/-!
The text of modules. In each function the parameters without a name and the results of instructions
are numbered in the order in which they stand; globals and functions without a name are numbered in
the module. A large integer constant is written in hexadecimal if that reads better: if its
hexadecimal text has few different digits and its decimal text has many. The shares of different
digits are compared in double precision.
-/

namespace Mil.Llvm

/-- The share of different digits among the digits of a text, of which at most `limit` count. -/
def variety (limit : Nat) (digits : List Char) : Float :=
  digits.eraseDups.length.toFloat / (min digits.length limit).toFloat

/-- The largest share of different digits that reads well, for a number of hexadecimal digits. -/
def plainVariety (length : Nat) : Float :=
  let n := min length 16
  let digits : Nat := if n ≤ 6 then 2 else if n ≤ 10 then 3 else 4
  digits.toFloat / n.toFloat

/-- Is a number better written in hexadecimal? -/
def readsBetterInHex (n : Nat) : Bool :=
  let hex := Nat.toDigits 16 n
  let inHex := variety 16 hex
  0x1000 ≤ n && inHex ≤ plainVariety hex.length + 0.01
    && variety 10 (Nat.toDigits 10 n) ≥ inHex + 0.2

def constantText (n : Int) : String :=
  if 0 ≤ n ∧ readsBetterInHex n.toNat then
    "u0x" ++ String.ofList ((Nat.toDigits 16 n.toNat).map Char.toUpper)
  else toString n

/-- The bytes of a text; those that are not printable ASCII, quotes and backslashes are written by
their hexadecimal numbers. -/
def escaped (s : String) : String :=
  String.join (s.toUTF8.toList.map fun b =>
    let c := Char.ofNat b.toNat
    if 0x20 ≤ b.toNat ∧ b.toNat < 0x7f ∧ c ≠ '\x22' ∧ c ≠ '\\' then c.toString
    else "\\" ++ Text.hexDigitsUpper 2 b.toNat)

/-- May a character stand in a symbol without quotes? -/
def isPlain (c : Char) : Bool :=
  c.isAlphanum || c = '$' || c = '-' || c = '.' || c = '_'

/-- Would a symbol be taken for a number of sixty-four bits? -/
def isNumeral (s : String) : Bool :=
  match s.toList with
  | [] | ['-'] => false
  | '-' :: cs => (Text.readDecimal? cs 0).any fun n => Text.fitsInt64 (-n)
  | cs => (Text.readDecimal? cs 0).any fun n => Text.fitsInt64 n

/-- A symbol, in quotes if it needs them. -/
def symbolText (s : String) : String :=
  if isNumeral s then "\"" ++ s ++ "\""
  else if s.toList.all isPlain then s
  else "\"" ++ escaped s ++ "\""

mutual

def IrType.render : IrType → String
  | .void => "void"
  | .int bits => "i" ++ toString bits
  | .pointer t => t.render ++ "*"
  | .array n t => "[" ++ toString n ++ " x " ++ t.render ++ "]"
  | .record ts => "\x7b " ++ ", ".intercalate (IrType.renderList ts) ++ " \x7d"
  | .function r ts => r.render ++ " (" ++ ", ".intercalate (IrType.renderList ts) ++ ")"

def IrType.renderList : List IrType → List String
  | [] => []
  | t :: ts => t.render :: IrType.renderList ts

end

def BinaryOp.name : BinaryOp → String
  | .add => "add"
  | .sub => "sub"
  | .mul => "mul"
  | .sdiv => "sdiv"
  | .srem => "srem"
  | .and => "and"
  | .or => "or"
  | .xor => "xor"
  | .shl => "shl"
  | .ashr => "ashr"
  | .lshr => "lshr"

def Predicate.name : Predicate → String
  | .eq => "eq"
  | .ne => "ne"
  | .slt => "slt"
  | .sle => "sle"
  | .sgt => "sgt"
  | .sge => "sge"
  | .ult => "ult"
  | .ule => "ule"
  | .ugt => "ugt"
  | .uge => "uge"

def Conversion.name : Conversion → String
  | .zext => "zext"
  | .trunc => "trunc"
  | .inttoptr => "inttoptr"
  | .ptrtoint => "ptrtoint"

def Linkage.word : Linkage → String
  | .visible => ""
  | .internal => "internal "
  | .anonymous => "private "

/-- What names depend on: the symbols of the module and the results of the function in order. -/
structure Names where
  globals : Array String
  functions : Array String
  results : List Nat

def Ref.render (ns : Names) : Ref → String
  | .result id => "%" ++ toString (if id ∈ ns.results then ns.results.idxOf id else 0)
  | .param name => "%" ++ name
  | .const n => constantText n
  | .global i => "@" ++ (ns.globals[i]?).getD ""
  | .function i => "@" ++ (ns.functions[i]?).getD ""
  | .undef => "undef"

def Operand.render (ns : Names) (o : Operand) : String := o.type.render ++ " " ++ o.ref.render ns

/-- Operands with commas between them. -/
def operandList (ns : Names) (os : List Operand) : String := ", ".intercalate (os.map (·.render ns))

/-- The text of an instruction, without its result. -/
def Inst.render (ns : Names) : Inst → String
  | .alloca t => "alloca " ++ t.render
  | .store src dst => "store " ++ src.render ns ++ ", " ++ dst.render ns
  | .load t src => "load " ++ t.render ++ ", " ++ src.render ns
  | .binary op x y => op.name ++ " " ++ x.render ns ++ ", " ++ y.ref.render ns
  | .compare pred x y => "icmp " ++ pred.name ++ " " ++ x.render ns ++ ", " ++ y.ref.render ns
  | .convert op x t => op.name ++ " " ++ x.render ns ++ " to " ++ t.render
  | .call isTail t callee args =>
    (if isTail then "tail " else "") ++ "call " ++ t.render ++ " " ++ callee.ref.render ns ++ "("
      ++ operandList ns args ++ ")"
  | .element t base indices =>
    "getelementptr " ++ t.render ++ ", " ++ operandList ns (base :: indices)
  | .extract a i => "extractvalue " ++ a.render ns ++ ", " ++ toString i
  | .insert a e i => "insertvalue " ++ a.render ns ++ ", " ++ e.render ns ++ ", " ++ toString i

/-- The text of the end of a block. -/
def Terminator.render (ns : Names) : Terminator → String
  | .jump l => "br label %" ++ l
  | .branch c t f => "br " ++ c.render ns ++ ", label %" ++ t ++ ", label %" ++ f
  | .switch a d cases =>
    "switch " ++ a.render ns ++ ", label %" ++ d ++ " [\n"
      ++ String.join (cases.map fun (c, l) => "\t\t" ++ c.render ns ++ ", label %" ++ l ++ "\n")
      ++ "\t]"
  | .ret none => "ret void"
  | .ret (some v) => "ret " ++ v.render ns
  | .unreachable => "unreachable"

def Block.render (ns : Names) (b : Block) : String :=
  b.label ++ ":\n"
    ++ String.join (b.insts.map fun (id, i) =>
      "\t" ++ (if i.hasResult then (Ref.result id).render ns ++ " = " else "") ++ i.render ns ++ "\n")
    ++ "\t" ++ b.terminator.render ns

/-- The results of a function, in the order of the text. -/
def Function.results (f : Function) : List Nat :=
  f.blocks.flatMap fun b => b.insts.filterMap fun (id, i) => if i.hasResult then some id else none

def numberParams : Nat → List (String × IrType) → List String
  | _, [] => []
  | n, (name, t) :: rest =>
    if name = "" then (t.render ++ " %" ++ toString n) :: numberParams (n + 1) rest
    else (t.render ++ " %" ++ name) :: numberParams n rest

def Function.render (ns : Names) (symbol : String) (f : Function) : String :=
  let header := f.linkage.word ++ f.result.render ++ " @" ++ symbol ++ "("
    ++ ", ".intercalate (numberParams 0 f.params) ++ ")"
  if f.blocks.isEmpty then "declare " ++ header
  else
    let ns := { ns with results := f.results }
    "define " ++ header ++ " \x7b\n" ++ "\n\n".intercalate (f.blocks.map (·.render ns)) ++ "\n\x7d"

/-- The text of the contents of a global variable. -/
def Contents.render : Contents → String
  | .zero => "zeroinitializer"
  | .text s => "c\"" ++ escaped s ++ "\""

def GlobalVar.render (symbol : String) (g : GlobalVar) : String :=
  "@" ++ symbol ++ " = " ++ g.linkage.word ++ (if g.constant then "constant " else "global ")
    ++ g.type.render ++ ((g.contents.map fun c => " " ++ c.render).getD "")

/-- Gives numbers to names that are empty, from a number on; the next number comes second. -/
def numberNames : Nat → List String → List String × Nat
  | n, [] => ([], n)
  | n, name :: rest =>
    if name = "" then
      let (names, m) := numberNames (n + 1) rest
      (toString n :: names, m)
    else
      let (names, m) := numberNames n rest
      (symbolText name :: names, m)

def Module.print (m : Module) : String :=
  let (globals, n) := numberNames 0 (m.globals.toList.map GlobalVar.name)
  let (functions, _) := numberNames n (m.functions.toList.map Function.name)
  let ns : Names := ⟨globals.toArray, functions.toArray, []⟩
  let vars := (globals.zip m.globals.toList).map fun (s, g) => g.render s ++ "\n"
  let funcs := (functions.zip m.functions.toList).map fun (s, f) => f.render ns s
  String.join vars ++ (if vars.isEmpty then "" else "\n") ++ "\n\n".intercalate funcs ++ "\n"

end Mil.Llvm
