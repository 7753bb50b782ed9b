import Mil.Code.Basic
import Mil.Diag

/-!
Programs. A program is a growing list of definitions, named by their position: blocks, closures,
top-level values and externals. Definitions are never removed; one that has been merged with another
says which one takes its place. Beside the definitions a program holds the types of its temporaries,
the types recorded at references to top-level values, and the unification variables that occur in
them.
-/

namespace Mil

/-- A block: parameters and a body. The body is missing while a copy waits to be filled in. The
declared type is the one that callers see, the working type the one that checking unifies, and the
generic variables are those of the working type that the declared type quantifies. -/
structure Block where
  params : List Temp
  body : Option Code
  declared : Option BlockType
  defining : Option BlockType
  generics : List Nat
  failed : Bool

/-- A version of a closure whose stored parameters were replaced by the fields of known
constructors. The shape has one entry for each stored parameter. -/
structure Derived where
  shape : List (Option Cfun)
  closure : DefnId

/-- A closure: parameters that are stored when it is allocated and arguments that are given when it
is entered. -/
structure Closure where
  params : List Temp
  args : List Temp
  tail : Option Tail
  declared : Option AllocType
  defining : Option AllocType
  generics : List Nat
  derived : List Derived
  failed : Bool

/-- One name of a top-level definition. -/
structure TopName where
  name : String
  declared : Option Scheme
  defining : Option Ty
  generics : List Nat

/-- A top-level definition: names for the results of a tail. -/
structure TopLevel where
  lhs : List TopName
  tail : Option Tail
  generics : List Nat
  failed : Bool

/-- A value that is made outside the program, or by a generator that is chosen by the reference and
its type arguments. -/
structure External where
  declared : Scheme
  ref : String
  types : List Ty
  impl : Option DefnId

/-- What a definition defines. -/
inductive DefnBody
  | block (b : Block)
  | closure (k : Closure)
  | top (t : TopLevel)
  | external (e : External)

structure Defn where
  name : String
  pos : Position
  entry : Bool
  replacedBy : Option DefnId
  body : DefnBody

namespace Block

def new (params : List Temp) (body : Option Code) : Block := ⟨params, body, none, none, [], false⟩

def typed (params : List Temp) (body : Option Code) (type : BlockType) : Block :=
  ⟨params, body, some type, some type, [], false⟩

end Block

namespace Closure

def new (params args : List Temp) (tail : Option Tail) : Closure :=
  ⟨params, args, tail, none, none, [], [], false⟩

/-- A closure that the compiler makes, at a type that is final. -/
def typed (params args : List Temp) (tail : Option Tail) (type : AllocType) : Closure :=
  ⟨params, args, tail, some type, some type, [], [], false⟩

end Closure

/-- A name that the compiler makes, at a type that is final. -/
def TopName.typed (name : String) (type : Ty) : TopName := ⟨name, some (.mono type), some type, []⟩

namespace DefnBody

def params : DefnBody → List Temp
  | .block b => b.params
  | .closure k => k.params
  | _ => []

/-- Does every binding have a declared type, so that a failure in it does not spread? -/
def allTypesDeclared : DefnBody → Bool
  | .block b => b.declared.isSome
  | .closure k => k.declared.isSome
  | .top t => t.lhs.all fun l => l.declared.isSome
  | .external _ => true

/-- Was the definition generalised over any variable? -/
def isPolymorphic : DefnBody → Bool
  | .block b => !b.generics.isEmpty
  | .closure k => !k.generics.isEmpty
  | .top t => !t.generics.isEmpty
  | .external e => e.declared.isPolymorphic

/-- The definitions that a definition refers to, in order and possibly several times. -/
def refs : DefnBody → List DefnId
  | .block b => (b.body.map Code.refs).getD []
  | .closure k => (k.tail.map Tail.refs).getD []
  | .top t => (t.tail.map Tail.refs).getD []
  | .external e => e.impl.toList

/-- The definitions that a definition refers to, each once. -/
def dependencies (b : DefnBody) : List DefnId := b.refs.eraseDups

end DefnBody

/-- A definition under construction, neither an entrypoint nor replaced. -/
def Defn.new (name : String) (pos : Position) (body : DefnBody) : Defn :=
  ⟨name, pos, false, none, body⟩

/-- A top-level definition is named by all its names. -/
def Defn.newTop (pos : Position) (t : TopLevel) : Defn :=
  .new (",".intercalate (t.lhs.map TopName.name)) pos (.top t)

def Defn.boundNames (d : Defn) : List String :=
  match d.body with
  | .top t => t.lhs.map TopName.name
  | _ => [d.name]

structure Program where
  env : Env
  prims : PrimTable
  defns : Array Defn
  entries : List DefnId
  names : List (String × DefnId)
  temps : TempTypes
  sites : Array (Option Ty)
  store : Store

namespace Program

/-- The program with built-in types and primitives only. -/
def empty : Program := ⟨.empty, .builtins, #[], [], [], #[], #[], .empty⟩

def all (p : Program) : List DefnId := List.range p.defns.size

/-- Appends a definition without a look at its name. -/
def add (p : Program) (d : Defn) : DefnId × Program :=
  (p.defns.size, { p with defns := p.defns.push d })

def lookup? (p : Program) (name : String) : Option DefnId := p.names.lookup name

/-- Appends a definition whose names must be new. -/
def define (p : Program) (d : Defn) : Except Failure (DefnId × Program) :=
  match d.boundNames.find? fun n => (p.lookup? n).isSome with
  | some n => .error ⟨d.pos, .structural, "multiple definitions for " ++ n⟩
  | none =>
    let (id, p) := p.add d
    .ok (id, { p with names := p.names ++ d.boundNames.map fun n => (n, id) })

def defn (p : Program) (id : DefnId) : Except Defect Defn :=
  match p.defns[id]? with
  | some d => .ok d
  | none => .error (.handleOutOfRange id)

def block (p : Program) (id : DefnId) : Except Defect Block := do
  match (← p.defn id).body with
  | .block b => return b
  | _ => throw (.notBlock id)

def closure (p : Program) (id : DefnId) : Except Defect Closure := do
  match (← p.defn id).body with
  | .closure k => return k
  | _ => throw (.notClosure id)

def block? (p : Program) (id : DefnId) : Option Block :=
  match (p.defns[id]?).map Defn.body with
  | some (.block b) => some b
  | _ => none

def closure? (p : Program) (id : DefnId) : Option Closure :=
  match (p.defns[id]?).map Defn.body with
  | some (.closure k) => some k
  | _ => none

def nameOf (p : Program) (id : DefnId) : String := ((p.defns[id]?).map Defn.name).getD ""

def setBody (p : Program) (id : DefnId) (body : DefnBody) : Program :=
  { p with defns := p.defns.modify id fun d => { d with body } }

def modify (p : Program) (id : DefnId) (f : Defn → Defn) : Program :=
  { p with defns := p.defns.modify id f }

def addEntry (p : Program) (id : DefnId) : Program :=
  let p := p.modify id fun d => { d with entry := true }
  if id ∈ p.entries then p else { p with entries := p.entries ++ [id] }

/-- Follows replacements, at most `fuel` of them. -/
def resolveWith (p : Program) : Nat → DefnId → DefnId
  | 0, id => id
  | fuel + 1, id =>
    match (p.defns[id]?).bind Defn.replacedBy with
    | none => id
    | some next => if next = id then id else resolveWith p fuel next

/-- The definition that has taken the place of the given one. -/
def resolve (p : Program) (id : DefnId) : DefnId := p.resolveWith p.defns.size id

def atomType (p : Program) : Atom → Option Ty
  | .temp t => p.temps.typeOf t
  | .lit (.word _) => some .word
  | .lit (.flag _) => some .flag
  | .top _ _ site => (p.sites[site]?).join

def freshTemp (p : Program) (t : Option Ty) : Temp × Program :=
  let (v, temps) := p.temps.fresh t
  (v, { p with temps })

def freshTemps (p : Program) (ts : List (Option Ty)) : List Temp × Program :=
  let (vs, temps) := p.temps.freshAll ts
  (vs, { p with temps })

/-- Makes a place for references to a top-level value. -/
def freshSite (p : Program) (t : Option Ty) : SiteId × Program :=
  (p.sites.size, { p with sites := p.sites.push t })

end Program

end Mil
