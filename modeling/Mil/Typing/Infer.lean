import Mil.Diag
import Mil.Program.Basic
import Mil.Ty.Scheme

/-!
Inference. The type of a tail or body is the tuple of its results. Every call and allocation is
given the instance of the target's type that was used for it, also when a later part of the body has
a problem: what was found before the problem stays. A problem found inside an operation says which
operation it is. Types in messages are read through the variables bound up to that point.
-/

namespace Mil.Typing

/-! ### Problems -/

/-- The operation in which a problem was found. -/
inductive Place
  | call (name : String)
  | prim (name : String)
  | alloc (name : String)
  | cfun (name : String)
  | enter
  | selector (cfun : String) (field : Int)
  | condition
  | branches
  | alternative (cfun : String)
  | default

def Place.describe : Place → String
  | .call n => "call to " ++ n
  | .prim n => "call to primitive " ++ n
  | .alloc n => "allocation of " ++ n
  | .cfun n => "constructor " ++ n
  | .enter => "enter"
  | .selector k i => "selector " ++ k ++ " " ++ toString i
  | .condition => "if condition"
  | .branches => "if branches"
  | .alternative k => "case alternative " ++ k
  | .default => "case default"

/-- Problems inside a definition. -/
inductive Problem
  | mismatch (e : UnifyError)
  | within (place : Place) (p : Problem)
  | unboundTemp (temp : Nat)
  | notBlock (name : String)
  | notClosure (name : String)
  | notTopValue (name : String)
  | missingBinding (index : Nat) (name : String)
  | noField (cfun : String) (field : Int)
  | missingCode
  | missingTail

def Problem.message (s : Store) : Problem → String
  | .mismatch e => e.message s
  | .within place p => place.describe ++ ": " ++ p.message s
  | .unboundTemp t => "temporary t" ++ toString t ++ " is used before it is bound"
  | .notBlock n => n ++ " is not a block"
  | .notClosure n => n ++ " is not a closure definition"
  | .notTopValue n => n ++ " is not a top-level value"
  | .missingBinding i n => "reference to missing binding " ++ toString i ++ " of " ++ n
  | .noField k i => "constructor " ++ k ++ " has no field " ++ toString i
  | .missingCode => "unknown code <nil>"
  | .missingTail => "unknown tail <nil>"

/-- Problems of a whole definition, with its name. Types are given by their text. -/
inductive DefnProblem
  | body (name message : String)
  | parameterCount (type name : String) (params : Nat)
  | parameters (type name : String)
  | tooGeneral (type name inferred : String)
  | ambiguous (vars : List String) (name : String)

def DefnProblem.message : DefnProblem → String
  | .body name message => "in " ++ name ++ ": " ++ message
  | .parameterCount type name n =>
    "declared type " ++ type ++ " of " ++ name ++ " does not match its " ++ toString n
      ++ " parameter(s)"
  | .parameters type name =>
    "declared type " ++ type ++ " of " ++ name ++ " does not match its parameters"
  | .tooGeneral type name inferred =>
    "declared type " ++ type ++ " for " ++ name ++ " is more general than inferred type " ++ inferred
  | .ambiguous vars name =>
    "ambiguous type variable(s) [" ++ " ".intercalate vars ++ "] in " ++ name

def DefnProblem.failure (p : DefnProblem) (pos : Position) : Failure := ⟨pos, .type, p.message⟩

/-! ### Inference -/

/-- Why inference stops. -/
inductive Stop
  | defect (d : Defect)
  | problem (p : Problem)

/-- The program keeps what was found before inference stopped. -/
abbrev Infer := ExceptT Stop (StateM Program)

def withStore {α : Type} (f : Store → α × Store) : Infer α := do
  let p ← get
  let (a, store) := f p.store
  set { p with store }
  return a

def freshVar (k : Kind) : Infer Ty := withStore (·.fresh k)

def fail {α : Type} (p : Problem) : Infer α := throw (.problem p)

/-- Says where the problems of a step were found. -/
def within {α : Type} (place : Place) (x : Infer α) : Infer α := fun p =>
  match x p with
  | (.error (.problem q), p) => (.error (.problem (.within place q)), p)
  | r => r

def unified (f : Store → Except UnifyError Unit × Store) : Infer Unit := do
  match ← withStore f with
  | .ok () => return
  | .error e => fail (.mismatch e)

/-- Makes two types equal. -/
def unify (expected found : Ty) : Infer Unit := unified (·.unify expected found)

def defnAt (id : DefnId) : Infer Defn := do
  match (← get).defns[id]? with
  | some d => return d
  | none => throw (.defect (.handleOutOfRange id))

/-- The type of a block at a reference: an instance of its declared type, or its working type. -/
def blockType (id : DefnId) : Infer BlockType := do
  let d ← defnAt id
  match d.body with
  | .block b =>
    match b.declared, b.defining with
    | some type, _ => withStore type.instantiate
    | none, some type => return type
    | none, none => throw (.defect (.untypedBlock d.name))
  | _ => fail (.notBlock d.name)

def allocType (id : DefnId) : Infer AllocType := do
  let d ← defnAt id
  match d.body with
  | .closure k =>
    match k.declared, k.defining with
    | some type, _ => withStore type.instantiate
    | none, some type => return type
    | none, none => throw (.defect (.untypedClosure d.name))
  | _ => fail (.notClosure d.name)

/-- The type of a top-level value at a reference. -/
def topType (id : DefnId) (index : Nat) : Infer Ty := do
  let d ← defnAt id
  match d.body with
  | .top t =>
    match t.lhs[index]? with
    | none => fail (.missingBinding index d.name)
    | some l =>
      match l.declared, l.defining with
      | some type, _ => withStore type.instantiate
      | none, some type => return type
      | none, none => throw (.defect (.untypedTop l.name))
  | .external e => withStore e.declared.instantiate
  | _ => fail (.notTopValue d.name)

/-- The type of an operand. References record it at their place. -/
def atomType (a : Atom) : Infer Ty := do
  match a with
  | .temp t =>
    match (← get).temps.typeOf t with
    | some type => return type
    | none => fail (.unboundTemp t)
  | .lit (.word _) => return .word
  | .lit (.flag _) => return .flag
  | .top id index site =>
    let type ← topType id index
    modify fun p => { p with sites := p.sites.modify site fun _ => some type }
    return type

/-- Unifies a domain with the types of operands. -/
def unifyArgs (dom : Ty) (args : List Atom) : Infer Unit := do
  unify dom (.tuple (← args.mapM atomType))

/-- Unifies stored fields with the types of operands. -/
def unifyStored (stored : List Ty) (args : List Atom) : Infer Unit := do
  let found ← args.mapM atomType
  unified (·.unifyAll stored found)

def inferCall (c : BlockCall) : Infer (BlockCall × Ty) := do
  let type ← blockType c.block
  within (.call ((← get).nameOf c.block)) (unifyArgs type.dom c.args)
  return ({ c with inst := some type }, type.rng)

def inferTail (t : Tail) : Infer (Tail × Ty) := do
  match t with
  | .ret args => return (t, .tuple (← args.mapM atomType))
  | .call c =>
    let (c, rng) ← inferCall c
    return (.call c, rng)
  | .prim p args _ =>
    let type ← withStore p.type.instantiate
    within (.prim p.name) (unifyArgs type.dom args)
    return (.prim p args (some type), type.rng)
  | .alloc k args _ =>
    let type ← allocType k
    within (.alloc ((← get).nameOf k)) (unifyStored type.stored args)
    return (.alloc k args (some type), .tuple [type.result])
  | .data k args _ =>
    let type ← withStore k.type.instantiate
    within (.cfun k.name) (unifyStored type.stored args)
    return (.data k args (some type), .tuple [type.result])
  | .enter fn args =>
    let found ← atomType fn
    let argTypes ← args.mapM atomType
    let rng ← freshVar .tuple
    within .enter (unify found (.func (.tuple argTypes) rng))
    return (t, rng)
  | .sel k field arg _ =>
    if field < 0 ∨ field ≥ k.arity then fail (.noField k.name field)
    let type ← withStore k.type.instantiate
    let found ← atomType arg
    within (.selector k.name field) (unify type.result found)
    return (.sel k field arg (some type), .tuple ((type.stored[field.toNat]?).toList))

/-- The types of bound temporaries; one without a type takes a variable. -/
def binderTypes : List Temp → Infer (List Ty)
  | [] => return []
  | v :: vs => do
    let type ← match (← get).temps.typeOf v with
      | some type => pure type
      | none =>
        let type ← freshVar .star
        modify fun p => { p with temps := p.temps.modify v fun _ => some type }
        pure type
    return type :: (← binderTypes vs)

/-- Infers the alternatives of a case, whose results all have the type `rng`. -/
def inferAlts (scrut rng : Ty) :
    List (Cfun × BlockCall) → StateM Program (List (Cfun × BlockCall) × Except Stop Unit)
  | [] => return ([], .ok ())
  | (k, c) :: alts => do
    let first : Infer (BlockCall × Ty) := do
      let type ← withStore k.type.instantiate
      within (.alternative k.name) (unify type.result scrut)
      inferCall c
    match ← first.run with
    | .error e => return ((k, c) :: alts, .error e)
    | .ok (c, found) =>
      match ← (within (.alternative k.name) (unify rng found)).run with
      | .error e => return ((k, c) :: alts, .error e)
      | .ok () =>
        let (alts, r) ← inferAlts scrut rng alts
        return ((k, c) :: alts, r)

def inferDefault (rng : Ty) (default : Option BlockCall) :
    StateM Program (Option BlockCall × Except Stop Unit) := do
  match default with
  | none => return (none, .ok ())
  | some c =>
    match ← (inferCall c).run with
    | .error e => return (some c, .error e)
    | .ok (c, found) => return (some c, ← (within .default (unify rng found)).run)

/-- Infers a branch on a truth value. -/
def inferBranch (cond : Atom) (t f : BlockCall) : StateM Program (Code × Except Stop Ty) := do
  let start : Infer (BlockCall × Ty) := do
    let found ← atomType cond
    within .condition (unify .flag found)
    inferCall t
  match ← start.run with
  | .error e => return (.branch cond t f, .error e)
  | .ok (t, tType) =>
    match ← (inferCall f).run with
    | .error e => return (.branch cond t f, .error e)
    | .ok (f, fType) =>
      let r ← (within .branches (unify tType fType)).run
      return (.branch cond t f, r.map fun _ => tType)

def inferCase (scrut : Atom) (alts : List (Cfun × BlockCall)) (default : Option BlockCall) :
    StateM Program (Code × Except Stop Ty) := do
  let start : Infer (Ty × Ty) := do
    let found ← atomType scrut
    return (found, ← freshVar .tuple)
  match ← start.run with
  | .error e => return (.case scrut alts default, .error e)
  | .ok (found, rng) =>
    match ← inferAlts found rng alts with
    | (alts, .error e) => return (.case scrut alts default, .error e)
    | (alts, .ok ()) =>
      let (default, r) ← inferDefault rng default
      return (.case scrut alts default, r.map fun _ => rng)

def inferCode : Code → StateM Program (Code × Except Stop Ty)
  | .bind vars tail next => do
    match ← (inferTail tail).run with
    | .error e => return (.bind vars tail next, .error e)
    | .ok (tail, found) =>
      let bound : Infer Unit := do unify (.tuple (← binderTypes vars)) found
      match ← bound.run with
      | .error e => return (.bind vars tail next, .error e)
      | .ok () =>
        let (next, r) ← inferCode next
        return (.bind vars tail next, r)
  | .done tail => do
    match ← (inferTail tail).run with
    | .error e => return (.done tail, .error e)
    | .ok (tail, found) => return (.done tail, .ok found)
  | .branch cond t f => inferBranch cond t f
  | .case scrut alts default => inferCase scrut alts default

end Mil.Typing
