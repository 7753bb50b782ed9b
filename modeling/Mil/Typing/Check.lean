import Mil.Program.Graph
import Mil.Typing.Infer

/-!
Checking of programs. The components of the reference graph are checked one after the other, each
after those it depends on: all members get working types, then all bodies are inferred, then the
working types are generalised. Members of one component see each other at their working types,
unless a type was declared. A problem in a body whose definition has all its types declared is only
reported, because others can go by the declaration; any other problem ends the check.
-/

namespace Mil.Typing

/-- The program and the failures reported so far. -/
structure Checker where
  program : Program
  log : FailureLog

/-- Why a check ends early. -/
inductive CheckError
  | defect (d : Defect)
  | failure (f : Failure)

/-- Steps of a check keep what was found before the check ended. -/
abbrev CheckM := ExceptT CheckError (StateM Checker)

def infer {α : Type} (x : StateM Program α) : CheckM α := do
  let c ← get
  let (a, program) := x.run c.program
  set { c with program }
  return a

def refuse {α : Type} (d : Defn) (p : DefnProblem) : CheckM α := throw (.failure (p.failure d.pos))

def setBody (id : DefnId) (body : DefnBody) : CheckM Unit :=
  modify fun c => { c with program := c.program.setBody id body }

def store : CheckM Store := return (← get).program.store

def onStore {α : Type} (f : Store → α × Store) : CheckM α :=
  infer fun p => let (a, store) := f p.store; (a, { p with store })

def setTypes (ts : List Temp) (types : List Ty) : CheckM Unit :=
  modify fun c =>
    let temps := (ts.zip types).foldl (fun temps (t, type) => temps.modify t fun _ => some type)
      c.program.temps
    { c with program := { c.program with temps } }

/-- The working type of a block: an instance of the declared type, or a variable for each parameter
and one for the range. -/
def blockWorkingType (b : Block) (s : Store) : BlockType × Store :=
  match b.declared with
  | some type => type.instantiate s
  | none =>
    let (dom, s) := s.freshAll (b.params.map fun _ => .star)
    let (rng, s) := s.fresh .tuple
    (⟨[], .tuple dom, rng⟩, s)

def initBlock (id : DefnId) (d : Defn) (b : Block) : CheckM Unit := do
  let type ← onStore (blockWorkingType b)
  setBody id (.block { b with defining := some type })
  let s ← store
  match (s.prune type.dom).elems? with
  | some dom =>
    if dom.length = b.params.length then setTypes b.params dom
    else refuse d (.parameterCount (declared s b) d.name b.params.length)
  | none => refuse d (.parameterCount (declared s b) d.name b.params.length)
where
  /-- The text of the declared type. -/
  declared (s : Store) (b : Block) : String := (b.declared.map (·.render s)).getD ""

/-- The types of the arguments that a function type takes, if it says how many there are. -/
def argTypes? (s : Store) (type : Ty) : Option (List Ty) :=
  (s.resolve type).asFunc?.bind fun (dom, _) => dom.elems?

/-- The working type of a closure: an instance of the declared type, or a variable for each parameter
and argument and one for the range. -/
def closureWorkingType (k : Closure) (s : Store) : AllocType × Store :=
  match k.declared with
  | some type => type.instantiate s
  | none =>
    let (stored, s) := s.freshAll (k.params.map fun _ => .star)
    let (args, s) := s.freshAll (k.args.map fun _ => .star)
    let (rng, s) := s.fresh .tuple
    (⟨[], stored, .func (.tuple args) rng⟩, s)

def initClosure (id : DefnId) (d : Defn) (k : Closure) : CheckM Unit := do
  let type ← onStore (closureWorkingType k)
  setBody id (.closure { k with defining := some type })
  let s ← store
  match argTypes? s type.result with
  | some args =>
    if args.length = k.args.length ∧ type.stored.length = k.params.length then
      setTypes k.params type.stored
      setTypes k.args args
    else refuse d (.parameters (declared s k) d.name)
  | none => refuse d (.parameters (declared s k) d.name)
where
  /-- The text of the declared type. -/
  declared (s : Store) (k : Closure) : String := (k.declared.map (·.render s)).getD ""

def nameWorkingType (l : TopName) (s : Store) : Ty × Store :=
  match l.declared with
  | some type => type.instantiate s
  | none => s.fresh .star

/-- Gives a top-level definition its working types. -/
def initTop (id : DefnId) (t : TopLevel) : CheckM Unit := do
  let lhs ← t.lhs.mapM fun l => do
    return { l with defining := some (← onStore (nameWorkingType l)) }
  setBody id (.top { t with lhs })

def definition (id : DefnId) : CheckM Defn := do
  match (← get).program.defns[id]? with
  | some d => return d
  | none => throw (.defect (.handleOutOfRange id))

/-- Gives a definition its working type, and its parameters the types that follow from it. -/
def setInitialType (id : DefnId) : CheckM Unit := do
  let d ← definition id
  match d.body with
  | .block b => initBlock id d b
  | .closure k => initClosure id d k
  | .top t => initTop id t
  | .external _ => return

def outcome (d : Defn) (r : Except Stop Unit) : CheckM (Option Failure) := do
  match r with
  | .ok () => return none
  | .error (.defect e) => throw (.defect e)
  | .error (.problem p) =>
    return some ((DefnProblem.body d.name (p.message (← store))).failure d.pos)

def checkTail (t : Option Tail) (expected : Ty) : CheckM (Option Tail × Except Stop Unit) := do
  match t with
  | none => return (none, .error (.problem .missingTail))
  | some t =>
    match ← infer (inferTail t).run with
    | .error e => return (some t, .error e)
    | .ok (t, found) => return (some t, ← infer (unify expected found).run)

/-- Infers the body of a definition and unifies it with the working type. -/
def checkBody (id : DefnId) : CheckM (Option Failure) := do
  let d ← definition id
  match d.body with
  | .block b =>
    match b.body with
    | none => outcome d (.error (.problem .missingCode))
    | some code =>
      let (code, r) ← infer (inferCode code)
      setBody id (.block { b with body := some code })
      match r, b.defining with
      | .error e, _ => outcome d (.error e)
      | .ok found, some type => outcome d (← infer (unify type.rng found).run)
      | .ok _, none => return none
  | .closure k =>
    let s ← store
    let expected := (k.defining.bind fun type => (s.resolve type.result).asFunc?).map Prod.snd
    let (tail, r) ← checkTail k.tail (expected.getD (.tuple []))
    setBody id (.closure { k with tail })
    outcome d r
  | .top t =>
    let (tail, r) ← checkTail t.tail (.tuple (t.lhs.filterMap TopName.defining))
    setBody id (.top { t with tail })
    outcome d r
  | .external _ => return none

/-- Marks a definition whose body has a problem. -/
def markFailed : DefnBody → DefnBody
  | .block b => .block { b with failed := true, defining := none }
  | .closure k => .closure { k with failed := true, defining := none }
  | .top t =>
    .top { t with failed := true, lhs := t.lhs.map fun l => { l with defining := none } }
  | b => b

/-- Adds the unbound variables of the types of temporaries. -/
def tempVars (p : Program) (ts : List Temp) (acc : List Nat) : List Nat :=
  ts.foldl (fun acc t => match p.temps.typeOf t with
    | some type => p.store.addVars type acc
    | none => acc) acc

/-- Adds the unbound variables of the instances recorded at a tail. -/
def tailVars (p : Program) (t : Tail) (acc : List Nat) : List Nat :=
  let acc := match t with
    | .call c => (c.inst.map fun i => i.addVars p.store acc).getD acc
    | .prim _ _ inst => (inst.map fun i => i.addVars p.store acc).getD acc
    | .alloc _ _ inst => (inst.map fun i => i.addVars p.store acc).getD acc
    | .data _ _ inst => (inst.map fun i => i.addVars p.store acc).getD acc
    | _ => acc
  t.atoms.foldl (fun acc a => match a with
    | .top _ _ site => match (p.sites[site]?).join with
      | some type => p.store.addVars type acc
      | none => acc
    | _ => acc) acc

/-- Adds the unbound variables of a body. -/
def codeVars (p : Program) : Code → List Nat → List Nat
  | .bind vars tail next, acc => codeVars p next (tailVars p tail (tempVars p vars acc))
  | .done tail, acc => tailVars p tail acc
  | c, acc => c.calls.foldl (fun acc call => tailVars p (.call call) acc) acc

/-- Reports the variables of a body that the type of the definition does not quantify. -/
def reportAmbiguous (d : Defn) (generics used : List Nat) : CheckM Unit := do
  let left := used.filter fun v => v ∉ generics
  if !left.isEmpty then
    let p : DefnProblem := .ambiguous (left.map fun v => Ty.render (.var v)) d.name
    modify fun c => { c with log := c.log.report (p.failure d.pos) }

def generalizeBlock (id : DefnId) (d : Defn) (b : Block) (type : BlockType) : CheckM Unit := do
  let s ← store
  let generics := type.addVars s []
  let inferred := type.generalize s generics
  match b.declared.filter fun declared => !declared.alphaEquiv s inferred with
  | some declared => refuse d (.tooGeneral (declared.render s) d.name (inferred.render s))
  | none =>
    setBody id (.block { b with declared := some inferred, generics })
    let p := (← get).program
    let acc := tempVars p b.params []
    reportAmbiguous d generics ((b.body.map fun c => codeVars p c acc).getD acc)

def generalizeClosure (id : DefnId) (d : Defn) (k : Closure) (type : AllocType) : CheckM Unit := do
  let s ← store
  let generics := type.addVars s []
  let inferred := type.generalize s generics
  match k.declared.filter fun declared => !declared.alphaEquiv s inferred with
  | some declared => refuse d (.tooGeneral (declared.render s) d.name (inferred.render s))
  | none =>
    setBody id (.closure { k with declared := some inferred, generics })
    let p := (← get).program
    let acc := tempVars p (k.params ++ k.args) []
    reportAmbiguous d generics ((k.tail.map fun t => tailVars p t acc).getD acc)

/-- Generalises the names of a top-level definition in turn. Those before one that is too general
keep what was found. -/
def generalizeNames (d : Defn) (s : Store) : List TopName → List TopName × Option DefnProblem
  | [] => ([], none)
  | l :: ls =>
    match l.defining with
    | none =>
      let (ls, r) := generalizeNames d s ls
      (l :: ls, r)
    | some type =>
      let generics := s.varsOf type
      let inferred := Scheme.generalize s type generics
      match l.declared.filter fun declared => !declared.alphaEquiv s inferred with
      | some declared =>
        (l :: ls, some (.tooGeneral (declared.render s) l.name (inferred.render s)))
      | none =>
        let (ls, r) := generalizeNames d s ls
        ({ l with declared := some inferred, generics } :: ls, r)

def generalizeTop (id : DefnId) (d : Defn) (t : TopLevel) : CheckM Unit := do
  let s ← store
  match generalizeNames d s t.lhs with
  | (lhs, some problem) =>
    setBody id (.top { t with lhs })
    refuse d problem
  | (lhs, none) =>
    let generics := (lhs.flatMap TopName.generics).eraseDups
    setBody id (.top { t with lhs, generics })
    let p := (← get).program
    reportAmbiguous d generics ((t.tail.map fun t => tailVars p t []).getD [])

/-- Quantifies the working type of a definition, unless its body has a problem. -/
def generalizeType (id : DefnId) : CheckM Unit := do
  let d ← definition id
  match d.body with
  | .block b =>
    match b.failed, b.defining with
    | false, some type => generalizeBlock id d b type
    | _, _ => return
  | .closure k =>
    match k.failed, k.defining with
    | false, some type => generalizeClosure id d k type
    | _, _ => return
  | .top t => if t.failed then return else generalizeTop id d t
  | .external _ => return

/-- Checks the body of a member of a component. A problem is reported if the types of the definition
are declared, and ends the check otherwise. -/
def checkMember (id : DefnId) : CheckM Unit := do
  match ← checkBody id with
  | none => return
  | some f =>
    let d ← definition id
    if !d.body.allTypesDeclared then throw (.failure f)
    modify fun c => { c with log := c.log.report f }
    setBody id (markFailed d.body)

def checkComponent (ids : List DefnId) : CheckM Unit := do
  ids.forM setInitialType
  ids.forM checkMember
  ids.forM generalizeType

end Mil.Typing

def Mil.Program.check (p : Mil.Program) : Mil.Typing.CheckM Unit :=
  (p.components p.all).forM Mil.Typing.checkComponent
