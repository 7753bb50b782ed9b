import Mil.Code.Basic

/-!
What is known at a point of a body from the bindings before it. A temporary may stand for another
operand; it may be known to hold the result of a certain tail; and the results of an expression may
be available from an earlier evaluation. Facts are only ever used further down the same body.
-/

namespace Mil.Optimize

/-- What an expression computes: a primitive by its number, or the selection of a field. -/
inductive Operator
  | prim (index : Nat)
  | sel (cfun : String) (field : Int)
deriving DecidableEq

/-- An expression whose results may be used again. The results of a stable one are kept across
effects. -/
structure Expression where
  operator : Operator
  operands : List Atom
  stable : Bool
deriving DecidableEq

def unplaced : Atom → Atom
  | .top d i _ => .top d i 0
  | a => a

def Expression.ofTail? (t : Tail) : Option Expression :=
  match t with
  | .prim p args _ =>
    if p.isRepeatable then some ⟨.prim p.index, args.map unplaced, p.purity = .pure⟩ else none
  | .sel k field arg _ => some ⟨.sel k.name field, [unplaced arg], true⟩
  | _ => none

/-- The facts that hold at a point of a body, the newest first. -/
structure Facts where
  renames : Replacement
  known : List (Temp × Tail)
  available : List (Expression × List Temp)

namespace Facts

def empty : Facts := ⟨[], [], []⟩

/-- The operand that an operand stands for. Operands are replaced before they are recorded, so one
step is enough. -/
def atom (f : Facts) (a : Atom) : Atom := f.renames.atom a

def tailOf? (f : Facts) (a : Atom) : Option Tail := a.temp?.bind fun t => f.known.lookup t

/-- The primitive call whose result an operand holds. -/
def primOf? (f : Facts) (a : Atom) : Option (Prim × List Atom) :=
  match f.tailOf? a with
  | some (.prim p args _) => some (p, args)
  | _ => none

/-- The constructor application that an operand holds, with the type at which it was made. -/
def dataOf? (f : Facts) (a : Atom) : Option (Cfun × List Atom × Option AllocType) :=
  match f.tailOf? a with
  | some (.data k args inst) => some (k, args, inst)
  | _ => none

def closureOf? (f : Facts) (a : Atom) : Option (DefnId × List Atom) :=
  match f.tailOf? a with
  | some (.alloc k args _) => some (k, args)
  | _ => none

def rename (f : Facts) (vs : List Temp) (as : List Atom) : Facts :=
  { f with renames := f.renames.extend vs as }

def forget (f : Facts) : Facts := { f with available := f.available.filter fun (e, _) => e.stable }

def bind (f : Facts) (vs : List Temp) (t : Tail) : Facts :=
  let f :=
    if t.hasNoEffect then
      match Expression.ofTail? t with
      | some e => { f with available := (e, vs) :: f.available }
      | none => f
    else f.forget
  match vs with
  | [v] => { f with known := (v, t) :: f.known }
  | _ => f

/-- The earlier results of the expression that a tail evaluates, as many as are needed. -/
def earlier? (f : Facts) (t : Tail) (count : Nat) : Option (List Temp) := do
  let vs ← f.available.lookup (← Expression.ofTail? t)
  if vs.length = count then some vs else none

end Facts

end Mil.Optimize
