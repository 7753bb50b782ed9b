import Mil.Ty.Basic

/-!
The store of unification variables. A variable has a kind and, once unification has bound it, a type
that it stands for. Bindings are never undone, and a type is read through them: `resolve` puts the
binding of every bound variable in its place. Each step along bindings uses up one unit of fuel; a
store without cycles never needs more steps than it has variables.

Two types are made equal by binding variables of the store. Bindings made before a mismatch is found
are kept, and show in the message. The recursion goes down one symbol of the types, read through the
store, at a time; `unifyFuel` is more than the number of symbols in reach, since a path down an acyclic
store meets each of them once.
-/

namespace Mil

structure VarCell where
  kind : Kind
  binding : Option Ty

/-- All variables made so far; a variable is named by its position. -/
structure Store where
  cells : Array VarCell

namespace Store

def empty : Store := ⟨#[]⟩

def binding? (s : Store) (v : Nat) : Option Ty :=
  (s.cells[v]?).bind VarCell.binding

def kindOf (s : Store) (v : Nat) : Kind :=
  ((s.cells[v]?).map VarCell.kind).getD .star

def fresh (s : Store) (k : Kind) : Ty × Store :=
  (.var s.cells.size, ⟨s.cells.push ⟨k, none⟩⟩)

def freshAll (s : Store) : List Kind → List Ty × Store
  | [] => ([], s)
  | k :: ks =>
    let (t, s) := s.fresh k
    let (ts, s) := freshAll s ks
    (t :: ts, s)

def bind (s : Store) (v : Nat) (t : Ty) : Store :=
  ⟨s.cells.modify v fun cell => { cell with binding := some t }⟩

/-- Follows bindings at the head of a type, at most `fuel` of them. -/
def pruneWith (s : Store) : Nat → Ty → Ty
  | fuel + 1, .var v =>
    match s.binding? v with
    | some t => pruneWith s fuel t
    | none => .var v
  | _, t => t

/-- The type that is an unbound variable or no variable, reached by following bindings. -/
def prune (s : Store) (t : Ty) : Ty :=
  s.pruneWith s.cells.size t

/-- Puts bindings in place of variables, at most `fuel` deep. -/
def resolveWith (s : Store) : Nat → Ty → Ty
  | 0, t => t
  | fuel + 1, t =>
    t.mapVars fun v =>
      match s.binding? v with
      | some b => resolveWith s fuel b
      | none => .var v

/-- The type with every bound variable replaced by its binding. -/
def resolve (s : Store) (t : Ty) : Ty :=
  s.resolveWith s.cells.size t

/-- The unbound variables of a type, from left to right, after those of `acc`. -/
def addVars (s : Store) (t : Ty) (acc : List Nat) : List Nat :=
  (s.resolve t).addVars acc

/-- The unbound variables of a type, from left to right. -/
def varsOf (s : Store) (t : Ty) : List Nat :=
  s.addVars t []

def kindsOf (s : Store) (vars : List Nat) : List Kind :=
  vars.map s.kindOf

def text (s : Store) (t : Ty) : String :=
  (s.resolve t).render

/-- The type with defaults in place of the variables that are still unbound. -/
def ground (s : Store) (t : Ty) : Ty :=
  (s.resolve t).mapVars fun v => Ty.defaultOf (s.kindOf v)

/-- Does the type hold neither unbound nor quantified variables? -/
def isGround (s : Store) (t : Ty) : Bool :=
  (s.resolve t).isGround

end Store

abbrev TySubst := List (Nat × Ty)

/-- Replaces variables in a type that is first read through the bindings. -/
def Store.applySubst (s : Store) (sub : TySubst) (t : Ty) : Ty :=
  (s.resolve t).mapVars fun v => (sub.lookup v).getD (.var v)

/-! ### Unification -/

/-- Why two types cannot be made equal. -/
inductive Mismatch
  | plain
  | tupleArity
  | infinite
  | arity
deriving DecidableEq

def Mismatch.reason : Mismatch → String
  | .plain => ""
  | .tupleArity => "tuple arity mismatch"
  | .infinite => "infinite type"
  | .arity => "arity mismatch"

/-- A mismatch between whole types: the one that was expected and the one that was found. -/
structure UnifyError where
  expected : Ty
  found : Ty
  mismatch : Mismatch

def UnifyError.message (s : Store) (e : UnifyError) : String :=
  let text := "type mismatch: expected " ++ s.text e.expected ++ ", found " ++ s.text e.found
  match e.mismatch.reason with
  | "" => text
  | reason => text ++ " (" ++ reason ++ ")"

namespace Store

def occurs (s : Store) (v : Nat) (t : Ty) : Bool :=
  v ∈ s.varsOf t

/-- Binds an unbound variable to a pruned type, unless that would make the type infinite. -/
def bindVar (s : Store) (v : Nat) (t : Ty) : Except Mismatch Unit × Store :=
  match t with
  | .var w =>
    if v = w then (.ok (), s) else (.ok (), s.bind v t)
  | t =>
    if s.occurs v t then (.error .infinite, s) else (.ok (), s.bind v t)

/-- Unifies two lists of one length, from left to right, up to the first mismatch. -/
def unifyElems {ε : Type} (unify : Store → Ty → Ty → Except ε Unit × Store) (s : Store) :
    List Ty → List Ty → Except ε Unit × Store
  | a :: as, b :: bs =>
    match unify s a b with
    | (.ok (), s) => unifyElems unify s as bs
    | r => r
  | _, _ => (.ok (), s)

def unifyWith : Nat → Store → Ty → Ty → Except Mismatch Unit × Store
  | 0, s, _, _ => (.error .plain, s)
  | fuel + 1, s, a, b =>
    match s.prune a, s.prune b with
    | .var v, b => s.bindVar v b
    | a, .var w => s.bindVar w a
    | .con c, .con d => (if c = d then .ok () else .error .plain, s)
    | .ap f x, .ap g y =>
      match unifyWith fuel s f g with
      | (.ok (), s) => unifyWith fuel s x y
      | r => r
    | .nat m, .nat n => (if m = n then .ok () else .error .plain, s)
    | .tuple xs, .tuple ys =>
      if xs.length ≠ ys.length then (.error .tupleArity, s)
      else unifyElems (unifyWith fuel) s xs ys
    | .gen m, .gen n => (if m = n then .ok () else .error .plain, s)
    | _, _ => (.error .plain, s)

def bindingSize (s : Store) : Nat :=
  s.cells.foldl (fun n cell => n + (cell.binding.map Ty.size).getD 0) 0

/-- More than the number of symbols that unification of two types can reach. -/
def unifyFuel (s : Store) (a b : Ty) : Nat :=
  s.bindingSize + a.size + b.size + 1

/-- Makes two types equal by binding variables. -/
def unify (s : Store) (expected found : Ty) : Except UnifyError Unit × Store :=
  match unifyWith (s.unifyFuel expected found) s expected found with
  | (.ok (), s) => (.ok (), s)
  | (.error m, s) => (.error ⟨expected, found, m⟩, s)

def unifyAll (s : Store) (expected found : List Ty) : Except UnifyError Unit × Store :=
  if expected.length ≠ found.length then
    (.error ⟨.tuple expected, .tuple found, .arity⟩, s)
  else unifyElems unify s expected found

end Store

end Mil
