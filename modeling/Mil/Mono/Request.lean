import Mil.Program.Basic

/-!
Requests for monomorphic copies. A definition that quantifies nothing is used as it is; any other is
copied once for each instance that is asked for, and the copy is named by the definition and a
number. A copy is added to the program at once, so that it can be referred to, and filled in later:
requests wait in a queue, oldest first.
-/

namespace Mil.Mono

/-- What a copy was asked for: a definition, for a top-level definition the name that was referred
to, and the text of the instance. A definition used as it is has no instance. -/
structure CloneKey where
  defn : DefnId
  index : Nat
  inst : Option String
deriving DecidableEq

/-- A copy that has to be filled in, with the types that take the place of the generic variables. -/
structure Pending where
  source : DefnId
  clone : DefnId
  subst : TySubst

/-- The program and all requests so far: copies by what they were asked for, copies of primitives by
the number of the primitive, how many copies each definition has, and the queue. -/
structure State where
  program : Program
  clones : List (CloneKey × DefnId)
  prims : List (Nat × Prim)
  counts : List (DefnId × Nat)
  queue : List Pending

def State.start (p : Program) : State := ⟨p, [], [], [], []⟩

/-- Why specialisation stops. -/
inductive Stop
  | defect (d : Defect)
  | failure (f : Failure)

/-- Steps of specialisation; what has changed is kept when one stops. -/
abbrev MonoM := ExceptT Stop (StateM State)

/-- What steps give together with the state they lead to, where nobody asks what a stop leaves. -/
def MonoM.run {α : Type} (x : MonoM α) (s : State) : Except Stop (α × State) :=
  let (r, s) := (ExceptT.run x).run s
  r.map fun a => (a, s)

/-- Stops because an invariant is broken. -/
def broken {α : Type} (d : Defect) : MonoM α := throw (.defect d)

def definition (id : DefnId) : MonoM Defn := do
  match (← get).program.defn id with
  | .ok d => return d
  | .error e => broken e

def store : MonoM Store := return (← get).program.store

def add (d : Defn) : MonoM DefnId := do
  let s ← get
  let (id, program) := s.program.add d
  set { s with program }
  return id

/-- The copy that was made before for the same request. -/
def known? (k : CloneKey) : MonoM (Option DefnId) := return (← get).clones.lookup k

def remember (k : CloneKey) (id : DefnId) : MonoM Unit :=
  modify fun s => { s with clones := (k, id) :: s.clones }

/-- Puts a request into the queue. -/
def enqueue (p : Pending) : MonoM Unit :=
  modify fun s => { s with queue := s.queue ++ [p] }

def nextNumber (id : DefnId) : MonoM Nat := do
  let n := ((← get).counts.lookup id).getD 0 + 1
  modify fun s => { s with counts := (id, n) :: s.counts }
  return n

def numbered (name : String) (n : Nat) : String := name ++ toString n

def mono (id : DefnId) : MonoM DefnId := do
  let k : CloneKey := ⟨id, 0, none⟩
  if (← known? k).isNone then
    remember k id
    enqueue ⟨id, id, []⟩
  return id

/-- The types that take the place of generic variables. -/
def specializing (vars : List Nat) (slots : Slots) : MonoM TySubst := do
  match slots.specialize? (← store) vars with
  | some sub => return sub
  | none => broken (.genericCount vars.length slots.length)

def block (id : DefnId) (inst : BlockType) : MonoM DefnId := do
  let d ← definition id
  match d.body with
  | .block b =>
    if b.generics.isEmpty then return ← mono id
    let s ← store
    let k : CloneKey := ⟨id, 0, some (inst.key s)⟩
    if let some c ← known? k then return c
    let declared := b.declared.getD (.ofLists [] [])
    let (ok, slots) := declared.matchInto s inst (Slots.ofKinds declared.kinds)
    if !ok then broken (.instanceMismatch (inst.render s) (declared.render s) d.name)
    let clone := { Block.new [] none with declared := some (inst.ground s) }
    let n ← nextNumber id
    let c ← add (.new (numbered d.name n) d.pos (.block clone))
    remember k c
    enqueue ⟨id, c, ← specializing b.generics slots⟩
    return c
  | _ => broken (.notBlock id)

def closure (id : DefnId) (inst : AllocType) : MonoM DefnId := do
  let d ← definition id
  match d.body with
  | .closure b =>
    if b.generics.isEmpty then return ← mono id
    let s ← store
    let k : CloneKey := ⟨id, 0, some (inst.key s)⟩
    if let some c ← known? k then return c
    let declared := b.declared.getD ⟨[], [], Ty.unit⟩
    let (ok, slots) := declared.matchInto s inst (Slots.ofKinds declared.kinds)
    if !ok then broken (.instanceMismatch (inst.render s) (declared.render s) d.name)
    let clone := { Closure.new [] [] none with declared := some (inst.ground s) }
    let n ← nextNumber id
    let c ← add (.new (numbered d.name n) d.pos (.closure clone))
    remember k c
    enqueue ⟨id, c, ← specializing b.generics slots⟩
    return c
  | _ => broken (.notClosure id)

/-- The top-level definition that serves an instance of one of the names of a top-level definition.
Generic variables of its other names that the instance leaves open take their defaults. -/
def topLevel (id : DefnId) (d : Defn) (t : TopLevel) (index : Nat) (inst : Option Ty) :
    MonoM DefnId := do
  if t.generics.isEmpty then return ← mono id
  let s ← store
  let type := inst.getD Ty.unit
  let k : CloneKey := ⟨id, index, some (s.text type)⟩
  if let some c ← known? k then return c
  match t.lhs[index]? with
  | none => broken (.notTopValue d.name)
  | some l =>
    let declared := l.declared.getD (.mono Ty.unit)
    let (ok, slots) := s.matchInto declared.type type (Slots.ofKinds declared.kinds)
    if !ok then broken (.instanceMismatch (s.text type) (declared.render s) l.name)
    let sub ← specializing l.generics slots
    let rest := (t.generics.filter fun g => g ∉ l.generics).map fun g => (g, Ty.defaultOf (s.kindOf g))
    let sub := sub ++ rest
    let n ← nextNumber id
    let lhs := t.lhs.map fun l =>
      (⟨numbered l.name n, l.defining.map fun u => .mono (s.ground (s.applySubst sub u)), none, []⟩ :
        TopName)
    let c ← add (.newTop d.pos ⟨lhs, none, [], false⟩)
    remember k c
    enqueue ⟨id, c, sub⟩
    return c

def external (id : DefnId) (d : Defn) (e : External) (inst : Option Ty) : MonoM DefnId := do
  if !e.declared.isPolymorphic then return id
  let s ← store
  let type := inst.getD Ty.unit
  let k : CloneKey := ⟨id, 0, some (s.text type)⟩
  if let some c ← known? k then return c
  let (ok, slots) := s.matchInto e.declared.type type (Slots.ofKinds e.declared.kinds)
  if !ok then broken (.instanceMismatch (s.text type) (e.declared.render s) d.name)
  let filled := slots.fill e.declared.kinds
  let types := e.types.map fun t => s.ground ((s.resolve t).instantiate filled)
  let n ← nextNumber id
  let c ← add (.new (numbered d.name n) d.pos (.external ⟨.mono (s.ground type), e.ref, types, none⟩))
  remember k c
  return c

/-- The definition that serves an instance of a top-level value, and the position of the value in
it. -/
def topRef (id : DefnId) (index : Nat) (inst : Option Ty) : MonoM (DefnId × Nat) := do
  let d ← definition id
  match d.body with
  | .top t => return (← topLevel id d t index inst, index)
  | .external e => return (← external id d e inst, 0)
  | _ => broken (.notTopValue d.name)

def prim (p : Prim) (inst : BlockType) : MonoM Prim := do
  if !p.type.isPolymorphic then return p
  let st ← get
  let s := st.program.store
  let inst := inst.ground s
  match st.prims.find? fun (i, q) => i = p.index && q.type.alphaEquiv s inst with
  | some (_, q) => return q
  | none =>
    let (q, prims) := st.program.prims.clone p inst
    set { st with program := { st.program with prims }, prims := st.prims ++ [(p.index, q)] }
    return q

/-- An entrypoint must have code and must not quantify anything. -/
def checkEntry (id : DefnId) : MonoM Unit := do
  let d ← definition id
  match d.body with
  | .external _ =>
    throw (.failure ⟨d.pos, .structural, "external " ++ d.name ++ " cannot be an entrypoint"⟩)
  | b =>
    if b.isPolymorphic then
      throw (.failure ⟨d.pos, .structural, "polymorphic entrypoint " ++ d.name⟩)

def entry (id : DefnId) : MonoM DefnId := do
  checkEntry id
  mono id

end Mil.Mono
