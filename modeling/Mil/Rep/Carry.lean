import Mil.Rep.Generate

/-!
The change of representation. Every temporary is replaced by the temporaries that carry it, and
operands and results are flattened accordingly. A selection of a field of several words becomes one
selection for each word. First the values of all top-level definitions are given their
representations, since bodies refer to them, and then all bodies are changed. What the change itself
adds is in its final form and is not looked at again.
-/

namespace Mil.Rep

/-- The operands that carry each temporary, the newest entry first. -/
abbrev Carriers := List (Temp × List Atom)

/-- Makes the temporaries that carry the given ones. -/
def bindTemps (env : Carriers) : List Temp → TransM (List Temp × Carriers)
  | [] => return ([], env)
  | v :: vs => do
    let types ← match (← get).program.temps.typeOf v with
      | some t => repsOf t
      | none => broken (.tempWithoutRep (Atom.temp v).render)
    let ws ← freshTemps types
    let (rest, env) ← bindTemps ((v, ws.map .temp) :: env) vs
    return (ws ++ rest, env)

/-- The operands that carry a top-level value. -/
def topAtoms (id : DefnId) (index : Nat) : TransM (List Atom) := do
  let s ← get
  match s.tops.lookup id with
  | none => broken (.unknownRep (s.program.nameOf id))
  | some values =>
    let target := match (s.program.defns[id]?).map Defn.body with
      | some (.external e) => e.impl.getD id
      | _ => id
    let before := (values.take index).flatten.length
    (((values[index]?).getD []).zipIdx).mapM fun (t, j) => do
      let site ← onProgram (·.freshSite (some t))
      return .top target (before + j) site

def atom (env : Carriers) (a : Atom) : TransM (List Atom) := do
  match a with
  | .temp t =>
    match env.lookup t with
    | some as => return as
    | none => broken (.tempWithoutRep a.render)
  | .lit _ => return [a]
  | .top id index _ => topAtoms id index

def atoms (env : Carriers) (as : List Atom) : TransM (List Atom) :=
  return (← as.mapM (atom env)).flatten

def singleAtom (env : Carriers) (a : Atom) : TransM Atom := do
  match ← atom env a with
  | [b] => return b
  | bs => broken (.atomNotSingle a.render bs.length)

def recorded {α : Type} (inst : Option α) (d : Defect) : TransM α :=
  match inst with
  | some i => return i
  | none => broken d

def call (env : Carriers) (c : BlockCall) : TransM BlockCall := do
  let args ← atoms env c.args
  let inst ← recorded c.inst .callWithoutInstance
  return ⟨c.block, args, some (← blockTypeOf inst)⟩

def tail (env : Carriers) (t : Tail) : TransM Tail := do
  match t with
  | .ret args => return .ret (← atoms env args)
  | .call c => return .call (← call env c)
  | .prim p args _ =>
    let args ← atoms env args
    match ← wideAccess p.op with
    | some (id, type) => return .call ⟨id, args, some type⟩
    | none =>
      let q ← wordPrim p
      return .prim q args (some q.type)
  | .alloc k args inst =>
    let args ← atoms env args
    let inst ← recorded inst .allocationWithoutInstance
    return .alloc k args (some (← allocTypeOf inst))
  | .data k args inst =>
    if k.data = .unit then return .ret []
    let args ← atoms env args
    let inst ← recorded inst .allocationWithoutInstance
    return .data k args (some (← allocTypeOf inst))
  | .enter fn args =>
    let fn ← singleAtom env fn
    return .enter fn (← atoms env args)
  | .sel _ _ _ _ => broken .missingTail

def selection (env : Carriers) (vs : List Temp) (k : Cfun) (field : Nat) (arg : Atom)
    (inst : AllocType) (next : Code) : TransM Code := do
  let type ← allocTypeOf inst
  let before := (← repsOfAll (inst.stored.take field)).length
  let n := (← repsOf ((inst.stored[field]?).getD .unit)).length
  if n ≠ vs.length then broken (.selectionWidth n vs.length)
  if n = 0 then return next
  let a ← singleAtom env arg
  return vs.zipIdx.foldr
    (fun (v, j) next => .bind [v] (.sel k (before + j : Nat) a (some type)) next) next

def done (env : Carriers) (t : Tail) : TransM Code := do
  match t with
  | .sel k field arg inst =>
    let inst ← recorded inst .allocationWithoutInstance
    let types ← repsOf ((inst.stored[field.toNat]?).getD .unit)
    let vs ← freshTemps types
    if vs.length = 1 then
      let type ← allocTypeOf inst
      let before := (← repsOfAll (inst.stored.take field.toNat)).length
      return .done (.sel k before (← singleAtom env arg) (some type))
    selection env vs k field.toNat arg inst (.done (.ret (vs.map .temp)))
  | t => return .done (← tail env t)

def code : Carriers → Code → TransM Code
  | env, .bind vars (.sel k field arg inst) next => do
    let inst ← recorded inst .allocationWithoutInstance
    let (vs, env) ← bindTemps env vars
    let next ← code env next
    selection env vs k field.toNat arg inst next
  | env, .bind vars t next => do
    let t ← tail env t
    let (vs, env) ← bindTemps env vars
    return .bind vs t (← code env next)
  | env, .done t => done env t
  | env, .branch cond t f => do
    let cond ← singleAtom env cond
    let t ← call env t
    return .branch cond t (← call env f)
  | env, .case scrut alts default => do
    match ← atom env scrut, alts, default with
    | [], (_, c) :: _, _ => return .done (.call (← call env c))
    | [], [], some c => return .done (.call (← call env c))
    | [], [], none => broken .missingTail
    | a :: _, alts, default =>
      let alts ← alts.mapM fun (k, c) => return (k, ← call env c)
      return .case a alts (← default.mapM (call env))

/-- The tail that code comes to. Code of several steps is moved into a new block that takes the
given parameters. -/
def tailOf (c : Code) (name : String) (params : List Temp) (rng : Ty) : TransM Tail := do
  match c with
  | .done t => return t
  | c =>
    let (block, type) ← onProgram fun p =>
      let (fresh, temps) := p.temps.freshLike params
      let (body, temps) := c.copy (Replacement.extend [] params (fresh.map .temp)) temps
      let type : BlockType := ⟨[], .tuple (fresh.filterMap temps.typeOf), rng⟩
      ((Block.typed fresh (some body) type, type), { p with temps })
    let id ← addBuiltin (name ++ "_body") (.block block)
    return .call ⟨id, params.map .temp, some type⟩

/-- Gives the values of a definition their representations. -/
def header (id : DefnId) : TransM Unit := do
  let p := (← get).program
  match p.defns[id]? with
  | none => broken (.handleOutOfRange id)
  | some d =>
    match d.body with
    | .top t =>
      let values ← t.lhs.mapM fun l => repsOf ((l.declared.map Scheme.type).getD .unit)
      modify fun s => { s with tops := (id, values) :: s.tops }
    | .external e =>
      let types ← repsOf e.declared.type
      modify fun s => { s with tops := (id, [types]) :: s.tops }
      match ← generate d e with
      | none => return
      | some impl =>
        checkImpl d e impl types
        onProgram fun p => ((), p.setBody id (.external { e with impl := some impl }))
    | _ => return

/-- Puts a finished body in its place. -/
def setBody (id : DefnId) (body : DefnBody) : TransM Unit :=
  onProgram fun p => ((), p.setBody id body)

/-- The names that carry a value of a top-level definition. -/
def carrierNames (name : String) (types : List Ty) : List TopName :=
  match types with
  | [t] => [.typed name t]
  | ts => ts.zipIdx.map fun (t, j) => .typed (name ++ "_" ++ toString j) t

/-- Changes a tail into code, unless it is missing. -/
def presentTail (env : Carriers) (t : Option Tail) : TransM Code :=
  match t with
  | some t => done env t
  | none => broken .missingTail

def body (id : DefnId) : TransM Unit := do
  let s ← get
  match s.program.defns[id]? with
  | none => broken (.handleOutOfRange id)
  | some d =>
    match d.body with
    | .block b =>
      let (params, env) ← bindTemps [] b.params
      match b.body with
      | none => broken .missingBody
      | some c =>
        let c ← code env c
        let type ← blockTypeOf (← recorded b.declared .callWithoutInstance)
        setBody id (.block
          { b with params, body := some c, declared := some type, defining := some type })
    | .closure k =>
      let (params, env) ← bindTemps [] k.params
      let (args, env) ← bindTemps env k.args
      let type ← allocTypeOf (← recorded k.declared .allocationWithoutInstance)
      let rng := (type.result.asFunc?.map Prod.snd).getD (.tuple [])
      let t ← tailOf (← presentTail env k.tail) d.name (params ++ args) rng
      setBody id (.closure
        { k with params, args, tail := some t, declared := some type, defining := some type })
    | .top t =>
      let values := (s.tops.lookup id).getD []
      let lhs := (t.lhs.zip values).flatMap fun (l, types) => carrierNames l.name types
      let rng := Ty.tuple (lhs.filterMap TopName.defining)
      let tl ← tailOf (← presentTail [] t.tail) d.name [] rng
      setBody id (.top { t with lhs, tail := some tl })
    | .external e =>
      if e.impl.isNone then
        let type := match (s.tops.lookup id).getD [] with
          | [[t]] => t
          | values => .tuple values.flatten
        setBody id (.external { e with declared := .mono type })

/-- Changes all definitions that can be reached. -/
def transform : TransM Unit := do
  let ids := (← get).program.reachable
  ids.forM header
  ids.forM body

end Mil.Rep

/-- The program with every value carried in words of the given size. The program that is left by an
early end holds what was changed up to there. -/
def Mil.Program.represent (p : Mil.Program) (size : Int) :
    Except Mil.Rep.Stop Unit × Mil.Program :=
  match Mil.Rep.TypeTable.new size with
  | .error e => (.error (.defect e), p)
  | .ok table =>
    let (r, s) := Mil.Rep.transform.run ⟨p, table, [], [], [], []⟩
    (r, s.program)
