import Mil.Ty.Scheme

/-!
Data types and their constructors. An environment holds the data types of a program in the order in
which they were declared, beside the types that are always there.
-/

namespace Mil

/-- A constructor of data values. Its type quantifies the parameters of the data type. -/
structure Cfun where
  name : String
  tag : Nat
  data : Tycon
  type : AllocType

namespace Cfun

/-- Constructors have different names, so the name tells them apart. -/
instance : BEq Cfun := ⟨fun a b => a.name == b.name⟩

def arity (c : Cfun) : Nat := c.type.stored.length

def unit : Cfun := ⟨"Unit", 0, .unit, ⟨[], [], Ty.unit⟩⟩

end Cfun

/-- A data type: its name, the number of its parameters and its constructors. -/
structure DataType where
  name : String
  params : Nat
  cfuns : List Cfun

/-- The data types of a program. -/
structure Env where
  datas : List DataType

namespace Env

def empty : Env := ⟨[]⟩

def builtins : List Tycon := [.word, .flag, .nzword, .addr, .bit, .ix, .unit]

def tycon? (env : Env) (name : String) : Option Tycon :=
  match builtins.find? (fun c => c.name = name) with
  | some c => some c
  | none => if env.datas.any (fun d => d.name = name) then some (.data name) else none

/-- The constructors of a type, in the order of their tags. -/
def cfunsOf (env : Env) : Tycon → List Cfun
  | .unit => [.unit]
  | .data name => ((env.datas.find? fun d => d.name = name).map DataType.cfuns).getD []
  | _ => []

def cfun? (env : Env) (name : String) : Option Cfun :=
  if name = Cfun.unit.name then some .unit
  else (env.datas.flatMap DataType.cfuns).find? fun c => c.name = name

def isData (env : Env) (c : Tycon) : Bool := !(env.cfunsOf c).isEmpty

def isUnitLike (env : Env) (c : Tycon) : Bool :=
  match env.cfunsOf c with
  | [k] => k.arity = 0
  | _ => false

/-- Declares a data type without constructors; its name must be new. -/
def addData? (env : Env) (name : String) (params : Nat) : Option Env :=
  if (env.tycon? name).isSome then none
  else some ⟨env.datas ++ [⟨name, params, []⟩]⟩

/-- Adds a constructor to a declared data type; its name must be new. -/
def addCfun? (env : Env) (data name : String) (fields : List Ty) : Option Env :=
  if (env.cfun? name).isSome then none
  else some ⟨env.datas.map fun d =>
    if d.name = data then
      let result := Ty.apply (.con (.data d.name)) ((List.range d.params).map .gen)
      let type : AllocType := ⟨List.replicate d.params .star, fields, result⟩
      { d with cfuns := d.cfuns ++ [⟨name, d.cfuns.length, .data d.name, type⟩] }
    else d⟩

end Env

end Mil
