/-!
Types of the intermediate language. A type is a unification variable, a quantified variable given by
its position in an enclosing list of kinds, a constructor, an application, a natural number or a
tuple. Functions of several arguments and results are the constructor `->>` applied to two tuples.
-/

namespace Mil

/-- What a type classifies: values, bit widths and index bounds, or lists of values. -/
inductive Kind
  | star
  | nat
  | tuple
deriving DecidableEq

def Kind.name : Kind → String
  | .star => "*"
  | .nat => "nat"
  | .tuple => "tuple"

/-- Type constructors: those that are built in, and the data types of a program by name. -/
inductive Tycon
  | word
  | flag
  | nzword
  | addr
  | bit
  | ix
  | func
  | unit
  | data (name : String)
deriving DecidableEq

def Tycon.name : Tycon → String
  | .word => "Word"
  | .flag => "Flag"
  | .nzword => "NZWord"
  | .addr => "Addr"
  | .bit => "Bit"
  | .ix => "Ix"
  | .func => "->>"
  | .unit => "Unit"
  | .data name => name

inductive Ty
  | var (id : Nat)
  | gen (index : Nat)
  | con (tycon : Tycon)
  | ap (fn : Ty) (arg : Ty)
  | nat (value : Nat)
  | tuple (elems : List Ty)

namespace Ty

instance : Inhabited Ty := ⟨.tuple []⟩

mutual

/-- Equality of types, symbol by symbol. -/
def beq : Ty → Ty → Bool
  | .var a, .var b => a == b
  | .gen a, .gen b => a == b
  | .con a, .con b => a == b
  | .ap f a, .ap g b => beq f g && beq a b
  | .nat a, .nat b => a == b
  | .tuple as, .tuple bs => beqList as bs
  | _, _ => false

/-- Equality of lists of types, position by position. -/
def beqList : List Ty → List Ty → Bool
  | [], [] => true
  | a :: as, b :: bs => beq a b && beqList as bs
  | _, _ => false

end

instance : BEq Ty := ⟨beq⟩

def word : Ty := .con .word

def flag : Ty := .con .flag

def nzword : Ty := .con .nzword

def addr : Ty := .con .addr

/-- The type with one value that carries nothing. -/
def unit : Ty := .con .unit

def bits (width : Nat) : Ty := .ap (.con .bit) (.nat width)

def func (dom rng : Ty) : Ty := .ap (.ap (.con .func) dom) rng

/-- A type applied to arguments in turn. -/
def apply (fn : Ty) (args : List Ty) : Ty := args.foldl .ap fn

def words (n : Nat) : List Ty := List.replicate n word

mutual

/-- Puts types in place of variables and of quantified variables. -/
def subst (onVar onGen : Nat → Ty) : Ty → Ty
  | .var v => onVar v
  | .gen n => onGen n
  | .con c => .con c
  | .ap f a => .ap (subst onVar onGen f) (subst onVar onGen a)
  | .nat n => .nat n
  | .tuple ts => .tuple (substList onVar onGen ts)

/-- Puts types in place of variables throughout a list. -/
def substList (onVar onGen : Nat → Ty) : List Ty → List Ty
  | [] => []
  | t :: ts => subst onVar onGen t :: substList onVar onGen ts

end

/-- Puts types in place of variables. -/
def mapVars (f : Nat → Ty) (t : Ty) : Ty := t.subst f .gen

/-- Puts the `n`-th type in place of the `n`-th quantified variable; those beyond the list stay. -/
def instantiate (types : List Ty) (t : Ty) : Ty :=
  t.subst .var fun n => (types[n]?).getD (.gen n)

/-- Puts the position of a variable in `vars` in its place; other variables stay. -/
def generalize (vars : List Nat) (t : Ty) : Ty :=
  t.mapVars fun v => if v ∈ vars then .gen (vars.idxOf v) else .var v

mutual

def size : Ty → Nat
  | .ap f a => size f + size a + 1
  | .tuple ts => sizeList ts + 1
  | _ => 1

/-- The number of symbols of a list of types. -/
def sizeList : List Ty → Nat
  | [] => 0
  | t :: ts => size t + sizeList ts

end

mutual

/-- Adds the variables of a type, from left to right, to a list that has none twice. -/
def addVars : Ty → List Nat → List Nat
  | .var v, acc => if v ∈ acc then acc else acc ++ [v]
  | .ap f a, acc => addVars a (addVars f acc)
  | .tuple ts, acc => addVarsList ts acc
  | _, acc => acc

/-- Adds the variables of a list of types. -/
def addVarsList : List Ty → List Nat → List Nat
  | [], acc => acc
  | t :: ts, acc => addVarsList ts (addVars t acc)

end

mutual

/-- Does a type hold neither variables nor quantified variables? -/
def isGround : Ty → Bool
  | .var _ => false
  | .gen _ => false
  | .con _ => true
  | .ap f a => isGround f && isGround a
  | .nat _ => true
  | .tuple ts => isGroundList ts

def isGroundList : List Ty → Bool
  | [] => true
  | t :: ts => isGround t && isGroundList ts

end

/-- The name of the `n`-th quantified variable. -/
def genName (n : Nat) : String :=
  if n < 26 then String.singleton (Char.ofNat ('a'.toNat + n)) else "a" ++ toString n

def isAp : Ty → Bool
  | .ap _ _ => true
  | _ => false

mutual

/-- The text of a type. `spine` holds inside the function part of an application, where the arrow of
a function type is not written between its two sides. -/
def renderAt (spine : Bool) : Ty → String
  | .var v => "_" ++ toString v
  | .gen n => genName n
  | .con c => c.name
  | .nat n => toString n
  | .tuple ts => "[" ++ ", ".intercalate (renderList ts) ++ "]"
  | .ap (.ap (.con .func) dom) rng =>
    if spine then
      Tycon.func.name ++ renderArg dom.isAp (renderAt false dom)
        ++ renderArg rng.isAp (renderAt false rng)
    else renderAt false dom ++ " ->> " ++ renderAt false rng
  | .ap f a => renderAt true f ++ renderArg a.isAp (renderAt false a)
where
  /-- An argument after a space, in parentheses if it is an application. -/
  renderArg (nested : Bool) (text : String) : String :=
    if nested then " (" ++ text ++ ")" else " " ++ text

def renderList : List Ty → List String
  | [] => []
  | t :: ts => renderAt false t :: renderList ts

end

def render (t : Ty) : String := t.renderAt false

def spine : Ty → Ty × List Ty
  | .ap f a =>
    let (head, args) := spine f
    (head, args ++ [a])
  | t => (t, [])

/-- The constructor at the head of a type and its arguments. -/
def headTycon? (t : Ty) : Option (Tycon × List Ty) :=
  match t.spine with
  | (.con c, args) => some (c, args)
  | _ => none

/-- The domain and range of a function type. -/
def asFunc? : Ty → Option (Ty × Ty)
  | .ap (.ap (.con .func) dom) rng => some (dom, rng)
  | _ => none

def elems? : Ty → Option (List Ty)
  | .tuple ts => some ts
  | _ => none

/-- The type that stands for one of kind `k` that no use determines. -/
def defaultOf : Kind → Ty
  | .tuple => .tuple []
  | .nat => .nat 0
  | .star => unit

end Ty

end Mil
