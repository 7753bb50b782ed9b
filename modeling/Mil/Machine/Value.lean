import Std.Data.HashMap
import Mil.Code.Basic

/-!
Values at run time: words, truth values, closures with what they store, and data. Beside them there
is a memory of bytes. Every address holds a byte, zero until it is written. An access of several
bytes takes the least significant byte at the lowest address, and addresses go round at the end of
sixty-four bits.
-/

namespace Mil

/-- Values. -/
inductive Value
  | word (w : Word)
  | flag (b : Bool)
  | closure (defn : DefnId) (fields : List Value)
  | data (cfun : Cfun) (fields : List Value)

namespace Value

instance : Inhabited Value := ⟨.word 0⟩

def asWord : Value → Word
  | .word w => w
  | _ => 0

/-- The literal that a word or truth value is. -/
def lit? : Value → Option Literal
  | .word w => some (.word w)
  | .flag b => some (.flag b)
  | _ => none

def ofLit : Literal → Value
  | .word w => .word w
  | .flag b => .flag b

mutual

def render : Value → String
  | .word w => w.render
  | .flag b => if b then "true" else "false"
  | .closure id _ => "<closure " ++ toString id ++ ">"
  | .data k [] => k.name
  | .data k (v :: vs) => k.name ++ "(" ++ ", ".intercalate (render v :: renderList vs) ++ ")"

def renderList : List Value → List String
  | [] => []
  | v :: vs => render v :: renderList vs

end

def renderAll (vs : List Value) : String := "[" ++ ", ".intercalate (renderList vs) ++ "]"

end Value

/-! ### Memory -/

/-- The bytes that were written. -/
structure Memory where
  bytes : Std.HashMap Int64 UInt8

namespace Memory

/-- All bytes zero. -/
def empty : Memory := ⟨∅⟩

def byte (m : Memory) (addr : Int64) : UInt8 := (m.bytes[addr]?).getD 0

/-- The address of a byte of an access. -/
def offset (addr : Int64) (i : Nat) : Int64 := addr + Int64.ofNat i

/-- Reads `n` bytes, at most eight. -/
def load (m : Memory) (addr : Int64) : Nat → UInt64
  | 0 => 0
  | n + 1 => m.load addr n ||| ((m.byte (offset addr n)).toUInt64 <<< UInt64.ofNat (8 * n))

/-- Writes the low `n` bytes of a number, at most eight. -/
def store (m : Memory) (addr : Int64) (v : UInt64) : Nat → Memory
  | 0 => m
  | n + 1 =>
    ⟨(m.store addr v n).bytes.insert (offset addr n) (v >>> UInt64.ofNat (8 * n)).toUInt8⟩

end Memory

end Mil
