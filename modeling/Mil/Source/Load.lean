import Mil.Diag
import Mil.Program.Basic
import Mil.Source.Spec
import Mil.Ty.Reader

/-!
Programs out of source files. Types come first, so that they may refer to each other; then
primitives, then the headers of all definitions, and last the bodies, in which every name can be
resolved. A name is a temporary that is in scope, a literal, or a top-level value, in this order.
-/

namespace Mil.Source

/-! ### Problems -/

/-- Problems of a source file. -/
inductive Problem
  | badText
  | notMapping
  | notList
  | unknownSection (name : String)
  | duplicateType (name : String)
  | duplicateCfun (name : String)
  | duplicatePrim (name : String)
  | fieldType (cfun : String) (e : TypeSyntaxError)
  | primType (name : String) (e : TypeSyntaxError)
  | defnType (name : String) (e : TypeSyntaxError)
  | unknownPurity (name : String)
  | typeCount (names : List String) (types : Nat)
  | undefinedName (name : String)
  | undefinedDefn (name : String)
  | notValue (name : String)
  | notBlock (name : String)
  | notClosure (name : String)
  | unknownCfun (name : String)
  | unknownPrim (name : String)
  | missingCall
  | missingTail
  | selectorArity (cfun : String)
  | emptyBody
  | ifNotLast
  | caseNotLast
  | lastBinds (names : List String)

/-- Names in brackets, with spaces between them. -/
def nameList (names : List String) : String := "[" ++ " ".intercalate names ++ "]"

namespace Problem

def message : Problem → String
  | .badText => "yaml"
  | .notMapping => "expected a mapping at top level"
  | .notList => "expected a list"
  | .unknownSection n => "unknown section " ++ Text.quote n
  | .duplicateType n => "multiple definitions for type " ++ n
  | .duplicateCfun n => "multiple definitions for constructor " ++ n
  | .duplicatePrim n => "multiple definitions for primitive " ++ n
  | .fieldType k e => "constructor " ++ k ++ ": " ++ e.message
  | .primType n e => "type of primitive " ++ n ++ ": " ++ e.message
  | .defnType n e => "type of " ++ n ++ ": " ++ e.message
  | .unknownPurity n => "unknown purity " ++ Text.quote n
  | .typeCount names k =>
    "top-level " ++ nameList names ++ ": " ++ toString names.length ++ " names but " ++ toString k
      ++ " types"
  | .undefinedName n => "undefined name " ++ n
  | .undefinedDefn n => "undefined definition " ++ n
  | .notValue n => n ++ " is not a value"
  | .notBlock n => n ++ " is not a block"
  | .notClosure n => n ++ " is not a closure definition"
  | .unknownCfun n => "unknown constructor " ++ n
  | .unknownPrim n => "unknown primitive " ++ n
  | .missingCall => "missing block call"
  | .missingTail => "missing tail"
  | .selectorArity k => "selector " ++ k ++ " takes one argument"
  | .emptyBody => "empty block body"
  | .ifNotLast => "if must end a block body"
  | .caseNotLast => "case must end a block body"
  | .lastBinds names => "last step of a block cannot bind " ++ nameList names

/-- Names that are defined twice are faults of structure, all else is a fault of the file. -/
def kind : Problem → FailureKind
  | .duplicateType _ => .structural
  | .duplicateCfun _ => .structural
  | .duplicatePrim _ => .structural
  | _ => .load

def failure (p : Problem) (pos : Position) : Failure := ⟨pos, p.kind, p.message⟩

end Problem

/-! ### Loading -/

open Mil.Yaml (Node DecodeError)

def positionOf (file : String) (n : Node) : Position := ⟨file, n.mark.line + 1, n.mark.col + 1⟩

def items {α : Type} (file : String) (decode : Node → Except DecodeError α) (part : Node) :
    Except Failure (List (Item α)) :=
  match part with
  | .list nodes _ => nodes.mapM fun n =>
    match decode n with
    | .ok spec => .ok ⟨spec, positionOf file n⟩
    | .error _ => .error (Problem.badText.failure (positionOf file n))
  | n => .error (Problem.notList.failure (positionOf file n))

def File.addSection (name : String) (f : File) (entry : Node × Node) : Except Failure File := do
  let (key, val) := entry
  match key.text with
  | "types" => return { f with types := ← items name DataSpec.decode val }
  | "prims" => return { f with prims := ← items name PrimSpec.decode val }
  | "externals" => return { f with externals := ← items name ExternalSpec.decode val }
  | "blocks" => return { f with blocks := ← items name BlockSpec.decode val }
  | "closures" => return { f with closures := ← items name ClosureSpec.decode val }
  | "tops" => return { f with tops := ← items name TopSpec.decode val }
  | part => throw ((Problem.unknownSection part).failure (positionOf name key))

/-- The sections below the root of a text. -/
def File.ofRoot (name : String) (root : Except Yaml.SyntaxError (Option Node)) : Except Failure File :=
  match root with
  | .error _ => .error (Problem.badText.failure (.ofFile name))
  | .ok none => .ok .empty
  | .ok (some (.map entries _)) => entries.foldlM (File.addSection name) .empty
  | .ok (some n) => .error (Problem.notMapping.failure (positionOf name n))

def File.parse (name text : String) : Except Failure File := File.ofRoot name (Node.parse text)

/-- Steps that build a program. -/
abbrev Load := StateT Program (Except Failure)

def fail {α : Type} (pos : Position) (p : Problem) : Load α := throw (p.failure pos)

/-- The value of a reader of types, or the problem that its failure is. -/
def typed {α : Type} (pos : Position) (problem : TypeSyntaxError → Problem)
    (r : Except TypeSyntaxError α) : Load α :=
  match r with
  | .ok a => return a
  | .error e => fail pos (problem e)

/-- Declares a data type without its constructors. -/
def declareData (it : Item DataSpec) : Load Unit := do
  let p ← get
  match p.env.addData? it.spec.name it.spec.params.length with
  | some env => set { p with env }
  | none => fail it.pos (.duplicateType it.spec.name)

/-- Declares a constructor of a data type. -/
def declareCfun (it : Item DataSpec) (c : CfunSpec) : Load Unit := do
  let env := (← get).env
  let fields ← c.fields.mapM fun text =>
    typed it.pos (.fieldType c.name) (Ty.readField env text it.spec.params)
  match env.addCfun? it.spec.name c.name fields with
  | some env => modify fun p => { p with env }
  | none => fail it.pos (.duplicateCfun c.name)

/-- How pure a declared primitive is; one that does not say counts as impure. -/
def purityOf (it : Item PrimSpec) : Load Purity :=
  if it.spec.purity = "" then return .impure
  else
    match Purity.ofName? it.spec.purity with
    | some purity => return purity
    | none => fail it.pos (.unknownPurity it.spec.purity)

def declarePrim (it : Item PrimSpec) : Load Unit := do
  let p ← get
  let type ← typed it.pos (.primType it.spec.name) (BlockType.read p.env it.spec.type)
  let purity ← purityOf it
  match p.prims.declare? it.spec.name purity type with
  | some prims => set { p with prims }
  | none => fail it.pos (.duplicatePrim it.spec.name)

def define (d : Defn) (entry : Bool) : Load DefnId := do
  let (id, p) ← (← get).define d
  set (if entry then p.addEntry id else p)
  return id

/-- The declared type of a definition, if one is written. -/
def declaredType {α : Type} (pos : Position) (name text : String)
    (read : Env → String → Except TypeSyntaxError α) : Load (Option α) := do
  if text = "" then return none
  else return some (← typed pos (.defnType name) (read (← get).env text))

/-- Adds a block without its body. -/
def declareBlock (it : Item BlockSpec) : Load DefnId := do
  let declared ← declaredType it.pos it.spec.name it.spec.type BlockType.read
  define (.new it.spec.name it.pos (.block { Block.new [] none with declared })) it.spec.entry

/-- Adds a closure without its tail. -/
def declareClosure (it : Item ClosureSpec) : Load DefnId := do
  let declared ← declaredType it.pos it.spec.name it.spec.type AllocType.read
  define (.new it.spec.name it.pos (.closure { Closure.new [] [] none with declared })) it.spec.entry

/-- A name of a top-level definition, with its type if the definition has types. -/
def topName (it : Item TopSpec) (name : String) (index : Nat) : Load TopName := do
  match it.spec.types[index]? with
  | some text =>
    let type ← typed it.pos (.defnType name) (Scheme.read (← get).env text)
    return ⟨name, some type, none, []⟩
  | none => return ⟨name, none, none, []⟩

/-- Adds a top-level definition without its tail. Either all names have types or none has. -/
def declareTop (it : Item TopSpec) : Load DefnId := do
  let spec := it.spec
  if !spec.types.isEmpty && spec.types.length ≠ spec.names.length then
    fail it.pos (.typeCount spec.names spec.types.length)
  let lhs ← spec.names.zipIdx.mapM fun (name, index) => topName it name index
  define (.newTop it.pos ⟨lhs, none, [], false⟩) spec.entry

def declareExternal (it : Item ExternalSpec) : Load Unit := do
  let spec := it.spec
  let (declared, types) ← typed it.pos (.defnType spec.name)
    (Scheme.readExternal (← get).env spec.type spec.types)
  let _ ← define (.new spec.name it.pos (.external ⟨declared, spec.ref, types, none⟩)) spec.entry

/-- The temporaries in scope by name, the newest first. -/
abbrev Scope := List (String × Temp)

/-- Makes a temporary for each name; of two for one name the last counts. -/
def bindAll (sc : Scope) (names : List String) : Load (List Temp × Scope) := do
  let (vs, p) := (← get).freshTemps (names.map fun _ => none)
  set p
  return (vs, (names.zip vs).reverse ++ sc)

/-- Resolves the name of a top-level value. -/
def topAtom (name : String) (pos : Position) : Load Atom := do
  let p ← get
  match p.lookup? name with
  | none => fail pos (.undefinedName name)
  | some id =>
    let reference (index : Nat) : Load Atom := do
      let (site, p) := p.freshSite none
      set p
      return .top id index site
    match (p.defns[id]?).map Defn.body with
    | some (.top t) => reference (t.lhs.findIdx fun l => l.name = name)
    | some (.external _) => reference 0
    | _ => fail pos (.notValue name)

def atom (sc : Scope) (pos : Position) (name : String) : Load Atom := do
  match sc.lookup name with
  | some t => return .temp t
  | none =>
    if name = "true" then return .flag true
    if name = "false" then return .flag false
    match Text.readInt64? name with
    | some w => return .word w
    | none => topAtom name pos

def defnRef (name : String) (pos : Position) : Load DefnId := do
  match (← get).lookup? name with
  | some id => return id
  | none => fail pos (.undefinedDefn name)

def blockCall (sc : Scope) (pos : Position) (c : CallSpec) : Load BlockCall := do
  let id ← defnRef c.call pos
  if ((← get).block? id).isNone then fail pos (.notBlock c.call)
  return ⟨id, ← c.args.mapM (atom sc pos), none⟩

/-- Resolves a call of a block that must not be left out. -/
def requiredCall (sc : Scope) (pos : Position) (c : Option CallSpec) : Load BlockCall :=
  match c with
  | some c => blockCall sc pos c
  | none => fail pos .missingCall

def cfun (name : String) (pos : Position) : Load Cfun := do
  match (← get).env.cfun? name with
  | some k => return k
  | none => fail pos (.unknownCfun name)

def tail (sc : Scope) (pos : Position) (t : TailSpec) : Load Tail := do
  let args ← t.args.mapM (atom sc pos)
  match t.ret with
  | some names => return .ret (← names.mapM (atom sc pos))
  | none =>
    if t.call ≠ "" then return .call (← blockCall sc pos ⟨t.call, t.args⟩)
    else if t.prim ≠ "" then
      match (← get).prims.find? t.prim with
      | some p => return .prim p args none
      | none => fail pos (.unknownPrim t.prim)
    else if t.alloc ≠ "" then
      let id ← defnRef t.alloc pos
      if ((← get).closure? id).isNone then fail pos (.notClosure t.alloc)
      return .alloc id args none
    else if t.data ≠ "" then return .data (← cfun t.data pos) args none
    else if t.enter ≠ "" then return .enter (← atom sc pos t.enter) args
    else if t.sel ≠ "" then
      let k ← cfun t.sel pos
      match args with
      | [a] => return .sel k t.index a none
      | _ => fail pos (.selectorArity t.sel)
    else fail pos .missingTail

def alternative (sc : Scope) (pos : Position) (a : AltSpec) : Load (Cfun × BlockCall) := do
  let k ← cfun a.cfun pos
  return (k, ← blockCall sc pos a.call)

def code (pos : Position) : Scope → List StepSpec → Load Code
  | _, [] => fail pos .emptyBody
  | sc, s :: rest => do
    if s.cond ≠ "" then
      if !rest.isEmpty then fail pos .ifNotLast
      let cond ← atom sc pos s.cond
      let t ← requiredCall sc pos s.ifTrue
      let f ← requiredCall sc pos s.ifFalse
      return .branch cond t f
    else if s.scrut ≠ "" then
      if !rest.isEmpty then fail pos .caseNotLast
      let scrut ← atom sc pos s.scrut
      let alts ← s.alts.mapM (alternative sc pos)
      let default ← s.default.mapM (blockCall sc pos)
      return .case scrut alts default
    else
      let t ← tail sc pos s.tail
      match rest with
      | [] =>
        match s.bind with
        | some names => fail pos (.lastBinds names)
        | none => return .done t
      | next :: rest =>
        let (vs, sc) ← bindAll sc (s.bind.getD [])
        return .bind vs t (← code pos sc (next :: rest))

def fillBlock (it : Item BlockSpec) (id : DefnId) : Load Unit := do
  let (params, sc) ← bindAll [] it.spec.params
  let body ← code it.pos sc it.spec.code
  modify fun p => match p.block? id with
    | some b => p.setBody id (.block { b with params, body := some body })
    | none => p

def fillClosure (it : Item ClosureSpec) (id : DefnId) : Load Unit := do
  let (params, sc) ← bindAll [] it.spec.stored
  let (args, sc) ← bindAll sc it.spec.args
  let t ← tail sc it.pos it.spec.tail
  modify fun p => match p.closure? id with
    | some k => p.setBody id (.closure { k with params, args, tail := some t })
    | none => p

/-- Fills in the tail of a top-level definition. -/
def fillTop (it : Item TopSpec) (id : DefnId) : Load Unit := do
  let t ← tail [] it.pos it.spec.tail
  modify fun p => match (p.defns[id]?).map Defn.body with
    | some (.top d) => p.setBody id (.top { d with tail := some t })
    | _ => p

def build (f : File) : Load Unit := do
  f.types.forM declareData
  f.types.forM fun it => it.spec.cfuns.forM (declareCfun it)
  f.prims.forM declarePrim
  let blocks ← f.blocks.mapM declareBlock
  let closures ← f.closures.mapM declareClosure
  let tops ← f.tops.mapM declareTop
  f.externals.forM declareExternal
  (f.blocks.zip blocks).forM fun (it, id) => fillBlock it id
  (f.closures.zip closures).forM fun (it, id) => fillClosure it id
  (f.tops.zip tops).forM fun (it, id) => fillTop it id

end Mil.Source

/-- The program that the sections of a source text describe. -/
def Mil.Program.ofFile (f : Mil.Source.File) : Except Mil.Failure Mil.Program := do
  let (_, p) ← (Mil.Source.build f).run .empty
  return p

/-- The program that a source text describes. -/
def Mil.Program.parse (file text : String) : Except Mil.Failure Mil.Program := do
  let f ← Mil.Source.File.parse file text
  Mil.Program.ofFile f
