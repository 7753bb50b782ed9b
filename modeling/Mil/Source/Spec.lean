import Mil.Diag
import Mil.Yaml.Decode

/-!
What a source file says, before names are resolved. A file is a mapping of sections, each a list of
items; an item is kept with its position. A section that is given twice counts as given last.
-/

namespace Mil.Source

open Mil.Yaml (Node DecodeError)
open Mil.Yaml.Node (asString asList asList? asOptional asBool asInt asRecord field)

/-- A constructor of a data type. -/
structure CfunSpec where
  name : String
  fields : List String

/-- A data type. -/
structure DataSpec where
  name : String
  params : List String
  cfuns : List CfunSpec

/-- A primitive that the program declares. -/
structure PrimSpec where
  name : String
  purity : String
  type : String

/-- An external value. -/
structure ExternalSpec where
  name : String
  type : String
  ref : String
  types : List String
  entry : Bool

/-- A tail. The first of the parts that is given says what kind of tail it is. -/
structure TailSpec where
  ret : Option (List String)
  call : String
  prim : String
  alloc : String
  data : String
  enter : String
  sel : String
  index : Int
  args : List String

/-- A call of a block. -/
structure CallSpec where
  call : String
  args : List String

/-- An alternative of a case. -/
structure AltSpec where
  cfun : String
  call : CallSpec

/-- A step of a body. -/
structure StepSpec where
  bind : Option (List String)
  tail : TailSpec
  cond : String
  ifTrue : Option CallSpec
  ifFalse : Option CallSpec
  scrut : String
  alts : List AltSpec
  default : Option CallSpec

/-- A block. -/
structure BlockSpec where
  name : String
  type : String
  params : List String
  code : List StepSpec
  entry : Bool

/-- A closure. -/
structure ClosureSpec where
  name : String
  type : String
  stored : List String
  args : List String
  tail : TailSpec
  entry : Bool

/-- A top-level definition. -/
structure TopSpec where
  names : List String
  types : List String
  tail : TailSpec
  entry : Bool

def strings : Node → Except DecodeError (List String) := asList asString

def CfunSpec.decode (n : Node) : Except DecodeError CfunSpec := do
  let r ← asRecord n
  return ⟨← field r "name" "" asString, ← field r "fields" [] strings⟩

def DataSpec.decode (n : Node) : Except DecodeError DataSpec := do
  let r ← asRecord n
  return ⟨← field r "name" "" asString, ← field r "params" [] strings,
    ← field r "cfuns" [] (asList CfunSpec.decode)⟩

def PrimSpec.decode (n : Node) : Except DecodeError PrimSpec := do
  let r ← asRecord n
  return ⟨← field r "name" "" asString, ← field r "purity" "" asString, ← field r "type" "" asString⟩

def ExternalSpec.decode (n : Node) : Except DecodeError ExternalSpec := do
  let r ← asRecord n
  return ⟨← field r "name" "" asString, ← field r "type" "" asString, ← field r "ref" "" asString,
    ← field r "ts" [] strings, ← field r "entry" false asBool⟩

def TailSpec.ofRecord (r : List (String × Node)) : Except DecodeError TailSpec := do
  return {
    ret := ← field r "return" none (asList? asString)
    call := ← field r "call" "" asString
    prim := ← field r "prim" "" asString
    alloc := ← field r "alloc" "" asString
    data := ← field r "data" "" asString
    enter := ← field r "enter" "" asString
    sel := ← field r "sel" "" asString
    index := ← field r "field" 0 asInt
    args := ← field r "args" [] strings }

def TailSpec.decode (n : Node) : Except DecodeError TailSpec := do
  TailSpec.ofRecord (← asRecord n)

def TailSpec.nothing : TailSpec := ⟨none, "", "", "", "", "", "", 0, []⟩

def CallSpec.ofRecord (r : List (String × Node)) : Except DecodeError CallSpec := do
  return ⟨← field r "call" "" asString, ← field r "args" [] strings⟩

def CallSpec.decode (n : Node) : Except DecodeError CallSpec := do
  CallSpec.ofRecord (← asRecord n)

def AltSpec.decode (n : Node) : Except DecodeError AltSpec := do
  let r ← asRecord n
  return ⟨← field r "cfun" "" asString, ← CallSpec.ofRecord r⟩

def StepSpec.decode (n : Node) : Except DecodeError StepSpec := do
  let r ← asRecord n
  return {
    bind := ← field r "bind" none (asList? asString)
    tail := ← TailSpec.ofRecord r
    cond := ← field r "if" "" asString
    ifTrue := ← field r "then" none (asOptional CallSpec.decode)
    ifFalse := ← field r "else" none (asOptional CallSpec.decode)
    scrut := ← field r "case" "" asString
    alts := ← field r "alts" [] (asList AltSpec.decode)
    default := ← field r "default" none (asOptional CallSpec.decode) }

def BlockSpec.decode (n : Node) : Except DecodeError BlockSpec := do
  let r ← asRecord n
  return ⟨← field r "name" "" asString, ← field r "type" "" asString, ← field r "params" [] strings,
    ← field r "code" [] (asList StepSpec.decode), ← field r "entry" false asBool⟩

def ClosureSpec.decode (n : Node) : Except DecodeError ClosureSpec := do
  let r ← asRecord n
  return ⟨← field r "name" "" asString, ← field r "type" "" asString, ← field r "stored" [] strings,
    ← field r "args" [] strings, ← field r "tail" .nothing TailSpec.decode,
    ← field r "entry" false asBool⟩

/-- Decodes a top-level definition. -/
def TopSpec.decode (n : Node) : Except DecodeError TopSpec := do
  let r ← asRecord n
  return ⟨← field r "names" [] strings, ← field r "types" [] strings,
    ← field r "tail" .nothing TailSpec.decode, ← field r "entry" false asBool⟩

/-- Something with its position in the file. -/
structure Item (α : Type) where
  spec : α
  pos : Position

/-- The sections of a file. -/
structure File where
  types : List (Item DataSpec)
  prims : List (Item PrimSpec)
  externals : List (Item ExternalSpec)
  blocks : List (Item BlockSpec)
  closures : List (Item ClosureSpec)
  tops : List (Item TopSpec)

/-- The file that says nothing. -/
def File.empty : File := ⟨[], [], [], [], [], []⟩

end Mil.Source
