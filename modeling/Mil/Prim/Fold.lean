import Mil.Word
import Mil.Prim.Basic

/-!
Evaluation of pure primitives on literals. Word operations work on sixty-four bits and cut their
result to the word size; comparisons cut their operands first. The optimiser and the interpreter
share these rules.
-/

namespace Mil

inductive Literal
  | word (value : Word)
  | flag (value : Bool)
deriving DecidableEq

namespace Literal

def asWord : Literal → Word
  | .word w => w
  | .flag _ => 0

def asFlag : Literal → Bool
  | .word _ => false
  | .flag b => b

def render : Literal → String
  | .word w => w.render
  | .flag b => if b then "true" else "false"

end Literal

namespace PrimOp

/-- The word that an operation on words gives, before it is cut to the word size. -/
def wordResult? (size : Int) (x y : Word) : PrimOp → Option Word
  | .not => some (~~~ x)
  | .neg => some (-x)
  | .and => some (x &&& y)
  | .or => some (x ||| y)
  | .xor => some (x ^^^ y)
  | .shl => some (Word.shiftLeft x (Word.shiftAmount size y))
  | .lshr =>
    some (Word.shiftRightUnsigned (Word.unsigned size x) (Word.shiftAmount size y)).toInt64
  | .ashr => some (Word.shiftRight (Word.normalize size x) (Word.shiftAmount size y))
  | .add => some (x + y)
  | .sub => some (x - y)
  | .mul => some (x * y)
  | .nzdiv =>
    if Word.normalize size y = 0 then none
    else some (Word.normalize size x / Word.normalize size y)
  | _ => none

def comparison? (size : Int) (x y : Word) : PrimOp → Option Bool
  | .eq => some (Word.normalize size x = Word.normalize size y)
  | .neq => some (Word.normalize size x ≠ Word.normalize size y)
  | .slt => some (Word.normalize size x < Word.normalize size y)
  | .sle => some (Word.normalize size x ≤ Word.normalize size y)
  | .sgt => some (Word.normalize size x > Word.normalize size y)
  | .sge => some (Word.normalize size x ≥ Word.normalize size y)
  | .ult => some (Word.unsigned size x < Word.unsigned size y)
  | .ule => some (Word.unsigned size x ≤ Word.unsigned size y)
  | .ugt => some (Word.unsigned size x > Word.unsigned size y)
  | .uge => some (Word.unsigned size x ≥ Word.unsigned size y)
  | _ => none

/-- The truth value that an operation on truth values gives. -/
def flagResult? (x y : Bool) : PrimOp → Option Bool
  | .bnot => some (!x)
  | .band => some (x && y)
  | .bor => some (x || y)
  | .bxor => some (x != y)
  | .beq => some (x == y)
  | .blt => some (!x && y)
  | .ble => some (!x || y)
  | .bgt => some (x && !y)
  | .bge => some (x || !y)
  | _ => none

/-- Evaluates an operation on literals; nothing if it has no rule or the divisor is zero. -/
def eval? (op : PrimOp) (size : Int) (args : List Literal) : Option Literal :=
  let x := (args[0]?).getD (.word 0)
  let y := (args[1]?).getD (.word 0)
  match op with
  | .flagToWord => some (.word (if x.asFlag then 1 else 0))
  | op =>
    match op.comparison? size x.asWord y.asWord with
    | some b => some (.flag b)
    | none =>
      match op.flagResult? x.asFlag y.asFlag with
      | some b => some (.flag b)
      | none => (op.wordResult? size x.asWord y.asWord).map fun w => .word (w.normalize size)

end PrimOp

/-- Evaluates a primitive on literals; only pure ones are evaluated. -/
def Prim.fold? (p : Prim) (size : Int) (args : List Literal) : Option Literal :=
  if p.purity = .pure then p.op.eval? size args else none

end Mil
