import Mil.Mono.Request

/-!
Filling in monomorphic copies. The body of the source is copied with new temporaries, ground types
in place of generic variables, and references to the copies that serve each instance, which may be
new requests. Specialisation goes on until the queue is empty.
-/

namespace Mil.Mono

/-- A type at which a copy is made: generic variables replaced and all others at their defaults. -/
def typeAt (sub : TySubst) (t : Ty) : MonoM Ty := do
  let s ← store
  return s.ground (s.applySubst sub t)

def blockTypeAt (sub : TySubst) (b : Option BlockType) : MonoM BlockType := do
  match b with
  | none => broken .callWithoutInstance
  | some b => return ⟨[], ← typeAt sub b.dom, ← typeAt sub b.rng⟩

def allocTypeAt (sub : TySubst) (a : Option AllocType) : MonoM AllocType := do
  match a with
  | none => broken .allocationWithoutInstance
  | some a => return ⟨[], ← a.stored.mapM (typeAt sub), ← typeAt sub a.result⟩

/-- New temporaries in place of old ones, the newest entry first. -/
abbrev Renames := List (Temp × Temp)

/-- Makes a temporary for each of the given ones. -/
def temps (sub : TySubst) (env : Renames) (vs : List Temp) : MonoM (List Temp × Renames) := do
  let types ← vs.mapM fun v => do ((← get).program.temps.typeOf v).mapM (typeAt sub)
  let st ← get
  let (ws, program) := st.program.freshTemps types
  set { st with program }
  return (ws, (vs.zip ws).reverse ++ env)

def atom (sub : TySubst) (env : Renames) (a : Atom) : MonoM Atom := do
  match a with
  | .temp t =>
    match env.lookup t with
    | some u => return .temp u
    | none => broken (.tempOutOfScope a.render)
  | .lit _ => return a
  | .top id index site =>
    let inst ← (((← get).program.sites[site]?).join).mapM (typeAt sub)
    let (id, index) ← topRef id index inst
    let st ← get
    let (site, program) := st.program.freshSite inst
    set { st with program }
    return .top id index site

def call (sub : TySubst) (env : Renames) (c : BlockCall) : MonoM BlockCall := do
  let inst ← blockTypeAt sub c.inst
  let target ← block c.block inst
  return ⟨target, ← c.args.mapM (atom sub env), some inst⟩

def tail (sub : TySubst) (env : Renames) (t : Tail) : MonoM Tail := do
  match t with
  | .ret args => return .ret (← args.mapM (atom sub env))
  | .call c => return .call (← call sub env c)
  | .prim p args inst =>
    let inst ← blockTypeAt sub inst
    let q ← prim p inst
    return .prim q (← args.mapM (atom sub env)) (some inst)
  | .alloc k args inst =>
    let inst ← allocTypeAt sub inst
    let l ← closure k inst
    return .alloc l (← args.mapM (atom sub env)) (some inst)
  | .data k args inst =>
    let args ← args.mapM (atom sub env)
    return .data k args (some (← allocTypeAt sub inst))
  | .enter fn args =>
    let fn ← atom sub env fn
    return .enter fn (← args.mapM (atom sub env))
  | .sel k field arg inst =>
    let arg ← atom sub env arg
    return .sel k field arg (some (← allocTypeAt sub inst))

def code (sub : TySubst) : Renames → Code → MonoM Code
  | env, .bind vars t next => do
    let t ← tail sub env t
    let (vs, env) ← temps sub env vars
    return .bind vs t (← code sub env next)
  | env, .done t => return .done (← tail sub env t)
  | env, .branch cond t f => do
    let cond ← atom sub env cond
    let t ← call sub env t
    return .branch cond t (← call sub env f)
  | env, .case scrut alts default => do
    let alts ← alts.mapM fun (k, c) => return (k, ← call sub env c)
    let scrut ← atom sub env scrut
    return .case scrut alts (← default.mapM (call sub env))

def presentTail (sub : TySubst) (env : Renames) (t : Option Tail) : MonoM Tail :=
  match t with
  | some t => tail sub env t
  | none => broken .copiedNoTail

/-- Puts a finished body in its place. -/
def setBody (id : DefnId) (body : DefnBody) : MonoM Unit :=
  modify fun s => { s with program := s.program.setBody id body }

/-- The declared type of a copy; a definition used as it is takes its own type, at defaults. -/
def ownType {α : Type} (p : Pending) (present : Option α) (own : MonoM α) : MonoM (Option α) :=
  if p.source = p.clone then some <$> own else return present

def fill (p : Pending) : MonoM Unit := do
  match (← definition p.source).body, (← definition p.clone).body with
  | .block o, .block c =>
    let (params, env) ← temps p.subst [] o.params
    match o.body with
    | none => broken .copiedNoBody
    | some body =>
      let body ← code p.subst env body
      let declared ← ownType p c.declared (blockTypeAt p.subst o.declared)
      setBody p.clone (.block
        { c with params, body := some body, declared, defining := declared, generics := [] })
  | .closure o, .closure c =>
    let (params, env) ← temps p.subst [] o.params
    let (args, env) ← temps p.subst env o.args
    let t ← presentTail p.subst env o.tail
    let declared ← ownType p c.declared (allocTypeAt p.subst o.declared)
    setBody p.clone (.closure
      { c with params, args, tail := some t, declared, defining := declared, generics := [] })
  | .top o, .top c =>
    let t ← presentTail p.subst [] o.tail
    let lhs ← c.lhs.mapM fun l => do
      let own ← l.defining.mapM (typeAt p.subst)
      let declared := if p.source = p.clone then own.map .mono else l.declared
      return { l with declared, defining := declared.map Scheme.type, generics := [] }
    setBody p.clone (.top { c with lhs, tail := some t, generics := [] })
  | _, _ => broken (.notSpecializable (← definition p.source).name)

/-- Fills in copies until the queue is empty, at most `fuel` of them. -/
def run : Nat → MonoM Unit
  | 0 => do
    if !(← get).queue.isEmpty then
      throw (.failure ⟨.unknown, .structural, "specialization does not end"⟩)
  | fuel + 1 => do
    let s ← get
    match s.queue with
    | [] => return
    | p :: queue =>
      set { s with queue }
      fill p
      run fuel

/-- Far more copies than are ever filled in. -/
def budget : Nat := 0x10000000000000000

def program : MonoM Unit := do
  let entries := (← get).program.entries
  entries.forM checkEntry
  entries.forM fun id => do
    let _ ← entry id
  run budget

end Mil.Mono

/-- The program with a monomorphic copy of everything that its entrypoints use. -/
def Mil.Program.specialize (p : Mil.Program) : Except Mil.Mono.Stop Mil.Program :=
  (Mil.Mono.program.run (.start p)).map fun (_, s) => s.program
