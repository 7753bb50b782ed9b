import Mil.Diag
import Mil.Ty.Scheme
import Mil.Word

/-!
The types that carry a value at run time. Bit vectors become words, indices, addresses and divisors
become one word each, the unit type and tuples dissolve into what they hold, and functions take and
give the representations of their operands. Representations are remembered by the text of the type,
so types of one text share the representation of the one that was met first.

A vector of `n` bits takes as many words as are needed to hold them, the least significant word first;
the last word may have bits to spare, which are kept zero.
-/

namespace Mil.Rep

/-! ### Bit vectors -/

def wordsFor (size width : Int) : Int := (width + size - 1).tdiv size

def lowWords (size : Nat) : Nat → Int → List Word
  | 0, _ => []
  | k + 1, v =>
    let modulus := (Nat.pow 2 size : Int)
    Word.normalize size (Int64.ofInt (v % modulus)) :: lowWords size k (v / modulus)

def splitWords (size value width : Int) : List Word :=
  lowWords size.toNat (wordsFor size width).toNat value

/-- The mask of the bits in use in the most significant word; nothing if all of them are. -/
def highMask? (size width : Int) : Option Word :=
  let r := width.tmod size
  if r = 0 then none
  else some (Word.shiftLeft 1 (Int64.ofInt r).toUInt64.toNat - 1)

/-! ### Types -/

/-- The word size of the target and the representations found so far. -/
structure TypeTable where
  size : Int
  known : List (String × List Ty)

def TypeTable.new (size : Int) : Except Defect TypeTable :=
  if size = 32 ∨ size = 64 then .ok ⟨size, []⟩ else .error (.unsupportedWordSize size)

/-- Computations that look up and remember representations. -/
abbrev RepM := StateT TypeTable (Except Defect)

/-- The width that a bit vector type gives to its one argument. -/
def widthOf (t : Ty) (args : List Ty) : Except Defect Nat :=
  match args with
  | [.nat n] => if n < 0x8000000000000000 then .ok n else .error (.noNaturalWidth t.render)
  | [_] => .error (.noNaturalWidth t.render)
  | _ => .error (.malformedType t.render)

/-- The representation of a type that is neither a tuple nor a function type with both sides. -/
def plainReps (size : Int) (t : Ty) : Except Defect (List Ty) :=
  match t.headTycon? with
  | none => .error (.notMonomorphic t.render)
  | some (.bit, args) => (widthOf t args).map fun n => Ty.words (wordsFor size n).toNat
  | some (.ix, _) | some (.nzword, _) | some (.addr, _) => .ok [Ty.word]
  | some (.unit, _) => .ok []
  | some (.func, _) => .error (.malformedFunctionType t.render)
  | some _ => .ok [t]

/-- Takes the remembered representation of a type, or finds and remembers it. -/
def memo (t : Ty) (find : RepM (List Ty)) : RepM (List Ty) := do
  match (← get).known.lookup t.render with
  | some ts => return ts
  | none =>
    let ts ← find
    modify fun s => { s with known := (t.render, ts) :: s.known }
    return ts

mutual

/-- The types that represent a type without bound variables. -/
def reps : Ty → RepM (List Ty)
  | .tuple ts => memo (.tuple ts) (repsAll ts)
  | .ap (.ap (.con .func) dom) rng => memo (.func dom rng) do
    let dom ← reps dom
    let rng ← reps rng
    return [.func (.tuple dom) (.tuple rng)]
  | t => memo t do plainReps (← get).size t

def repsAll : List Ty → RepM (List Ty)
  | [] => return []
  | t :: ts => do
    let us ← reps t
    return us ++ (← repsAll ts)

end

def single (t : Ty) : RepM Ty := do
  match ← reps t with
  | [u] => return u
  | us => throw (.notSingle t.render us.length)

def blockType (s : Store) (b : BlockType) : RepM BlockType := do
  let dom ← reps (s.resolve b.dom)
  let rng ← reps (s.resolve b.rng)
  return .ofLists dom rng

def allocType (s : Store) (a : AllocType) : RepM AllocType := do
  let stored ← repsAll (a.stored.map s.resolve)
  let result ← single (s.resolve a.result)
  return ⟨[], stored, result⟩

end Mil.Rep
