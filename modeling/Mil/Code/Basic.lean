import Mil.Prim.Fold
import Mil.Ty.Env

/-!
Code. A body is a sequence of bindings that ends in a tail, a branch on a truth value or a branch on
the constructor of a data value. Operands are atoms: temporaries, literals and references to
top-level values. Definitions are named by their number in the program. Calls and allocations carry
the instance of the target's type that checking has found for them.

A copy of code replaces temporaries by operands and gives every binder a new temporary of the same type,
so that it can be placed in another body without capturing anything there.
-/

namespace Mil

abbrev Temp := Nat

abbrev DefnId := Nat

/-- The number of a place where a top-level value is referred to. Copies of an operand share its
place, and checking records one type for each place. -/
abbrev SiteId := Nat

/-- Operands. A reference names one of the values that a top-level definition binds. -/
inductive Atom
  | temp (t : Temp)
  | lit (l : Literal)
  | top (defn : DefnId) (index : Nat) (site : SiteId)
deriving DecidableEq

namespace Atom

instance : Inhabited Atom := ⟨.lit (.word 0)⟩

def word (w : Word) : Atom := .lit (.word w)

def flag (b : Bool) : Atom := .lit (.flag b)

def temp? : Atom → Option Temp
  | .temp t => some t
  | _ => none

def lit? : Atom → Option Literal
  | .lit l => some l
  | _ => none

/-- The definition that an operand refers to. -/
def defn? : Atom → Option DefnId
  | .top d _ _ => some d
  | _ => none

/-- The text of an operand by itself, outside any program. -/
def render : Atom → String
  | .temp t => "t" ++ toString t
  | .lit l => l.render
  | .top d i _ => "top" ++ toString d ++ "." ++ toString i

end Atom

/-- A call of a block, or a jump to it. -/
structure BlockCall where
  block : DefnId
  args : List Atom
  inst : Option BlockType

/-- What computes the results of a binding or of a whole body. -/
inductive Tail
  | ret (args : List Atom)
  | call (c : BlockCall)
  | prim (p : Prim) (args : List Atom) (inst : Option BlockType)
  | alloc (closure : DefnId) (args : List Atom) (inst : Option AllocType)
  | data (cfun : Cfun) (args : List Atom) (inst : Option AllocType)
  | enter (fn : Atom) (args : List Atom)
  | sel (cfun : Cfun) (field : Int) (arg : Atom) (inst : Option AllocType)

inductive Code
  | bind (vars : List Temp) (tail : Tail) (next : Code)
  | done (tail : Tail)
  | branch (cond : Atom) (ifTrue ifFalse : BlockCall)
  | case (scrut : Atom) (alts : List (Cfun × BlockCall)) (default : Option BlockCall)

/-- The call with every operand replaced. -/
def BlockCall.mapAtoms (f : Atom → Atom) (c : BlockCall) : BlockCall :=
  { c with args := c.args.map f }

namespace Tail

def atoms : Tail → List Atom
  | .ret args => args
  | .call c => c.args
  | .prim _ args _ => args
  | .alloc _ args _ => args
  | .data _ args _ => args
  | .enter fn args => fn :: args
  | .sel _ _ arg _ => [arg]

/-- The tail with every operand replaced. -/
def mapAtoms (f : Atom → Atom) : Tail → Tail
  | .ret args => .ret (args.map f)
  | .call c => .call (c.mapAtoms f)
  | .prim p args inst => .prim p (args.map f) inst
  | .alloc k args inst => .alloc k (args.map f) inst
  | .data k args inst => .data k (args.map f) inst
  | .enter fn args => .enter (f fn) (args.map f)
  | .sel k field arg inst => .sel k field (f arg) inst

def target? : Tail → Option DefnId
  | .call c => some c.block
  | .alloc k _ _ => some k
  | _ => none

/-- The definitions that a tail refers to, operands first. -/
def refs (t : Tail) : List DefnId :=
  t.atoms.filterMap Atom.defn? ++ t.target?.toList

/-- Can a binding be dropped when its results are not used? -/
def hasNoEffect : Tail → Bool
  | .ret _ => true
  | .alloc _ _ _ => true
  | .data _ _ _ => true
  | .sel _ _ _ _ => true
  | .prim p _ _ => p.hasNoEffect
  | _ => false

/-- Can the tail be evaluated twice, or its results be taken from an earlier evaluation? -/
def isRepeatable : Tail → Bool
  | .ret _ => true
  | .sel _ _ _ _ => true
  | .prim p _ _ => p.isRepeatable
  | _ => false

/-- Does what follows the tail never run? -/
def doesntReturn : Tail → Bool
  | .prim p _ _ => p.doesntReturn
  | _ => false

end Tail

namespace Code

def calls : Code → List BlockCall
  | .branch _ t f => [t, f]
  | .case _ alts default => alts.map Prod.snd ++ default.toList
  | _ => []

/-- The operands of the whole body, in the order in which they are read. -/
def atoms : Code → List Atom
  | .bind _ tail next => tail.atoms ++ next.atoms
  | .done tail => tail.atoms
  | .branch cond t f => cond :: t.args ++ f.args
  | .case scrut alts default =>
    scrut :: (Code.case scrut alts default).calls.flatMap BlockCall.args

/-- The temporaries that a body reads, each once. -/
def usedTemps (c : Code) : List Temp :=
  (c.atoms.filterMap Atom.temp?).eraseDups

def reads (c : Code) (t : Temp) : Bool := c.atoms.contains (.temp t)

def binders : Code → List Temp
  | .bind vars _ next => vars ++ next.binders
  | _ => []

def size : Code → Nat
  | .bind _ _ next => next.size + 1
  | _ => 1

/-- The definitions that a body refers to, in order. -/
def refs : Code → List DefnId
  | .bind _ tail next => tail.refs ++ next.refs
  | .done tail => tail.refs
  | .branch cond t f => cond.defn?.toList ++ (Tail.call t).refs ++ (Tail.call f).refs
  | .case scrut alts default =>
    scrut.defn?.toList ++ (Code.case scrut alts default).calls.flatMap fun c => (Tail.call c).refs

/-- The body with every operand replaced. -/
def mapAtoms (f : Atom → Atom) : Code → Code
  | .bind vars tail next => .bind vars (tail.mapAtoms f) (next.mapAtoms f)
  | .done tail => .done (tail.mapAtoms f)
  | .branch cond t e => .branch (f cond) (t.mapAtoms f) (e.mapAtoms f)
  | .case scrut alts default =>
    .case (f scrut) (alts.map fun (k, c) => (k, c.mapAtoms f)) (default.map (·.mapAtoms f))

end Code

/-! ### Copies -/

/-- The type of each temporary, as far as it is known; a temporary is the position of its entry. -/
abbrev TempTypes := Array (Option Ty)

namespace TempTypes

def fresh (temps : TempTypes) (t : Option Ty) : Temp × TempTypes :=
  (temps.size, temps.push t)

def freshAll (temps : TempTypes) : List (Option Ty) → List Temp × TempTypes
  | [] => ([], temps)
  | t :: ts =>
    let (v, temps) := temps.fresh t
    let (vs, temps) := freshAll temps ts
    (v :: vs, temps)

def typeOf (temps : TempTypes) (t : Temp) : Option Ty := (temps[t]?).join

/-- Makes a temporary of the same type for each of the given ones. -/
def freshLike (temps : TempTypes) (vs : List Temp) : List Temp × TempTypes :=
  temps.freshAll (vs.map temps.typeOf)

end TempTypes

/-- What temporaries are replaced by, the newest entry first. -/
abbrev Replacement := List (Temp × Atom)

namespace Replacement

/-- Adds replacements pairwise; of two for one temporary the last counts. -/
def extend (env : Replacement) (vs : List Temp) (as : List Atom) : Replacement :=
  (vs.zip as).reverse ++ env

def atom (env : Replacement) (a : Atom) : Atom :=
  match a with
  | .temp t => (env.lookup t).getD a
  | a => a

end Replacement

def Code.copy (env : Replacement) (temps : TempTypes) : Code → Code × TempTypes
  | .bind vars tail next =>
    let (vs, temps) := temps.freshLike vars
    let (rest, temps) := copy (env.extend vars (vs.map .temp)) temps next
    (.bind vs (tail.mapAtoms env.atom) rest, temps)
  | c => (c.mapAtoms env.atom, temps)

end Mil
