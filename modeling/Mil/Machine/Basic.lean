import Mil.Machine.Value
import Mil.Program.Basic

/-!
The state of the interpreter and single operations. A top-level value is computed when an operand
needs it for the first time, and kept. An operation that needs one that is not there yet stalls: it
is taken up again from its start when the value has been computed, which repeats no effect, since
operands are read before anything is done with them.
-/

namespace Mil

/-- Why a run ends without values. -/
inductive Halt
  | defect (d : Defect)
  | failure (f : Failure)

/-- The interpreter between two operations. A positive fuel bounds the number of tails that are
evaluated; `steps` counts them. The words printed so far stand last one first. -/
structure Machine where
  size : Int
  fuel : Int
  steps : Nat
  memory : Memory
  tops : List (DefnId × List Value)
  active : List DefnId
  pos : Position
  printed : List Word

namespace Machine

def new (size fuel : Int) : Machine := ⟨size, fuel, 0, .empty, [], [], .unknown, []⟩

/-- What was printed, one word a line. -/
def output (m : Machine) : String :=
  String.join (m.printed.reverse.map fun w => w.render ++ "\n")

def fail (m : Machine) (msg : String) : Halt := .failure ⟨m.pos, .runtime, msg⟩

/-- Values of temporaries, the newest first. -/
abbrev Locals := List (Temp × Value)

/-- Gives values to temporaries; of two for one temporary the last counts. -/
def assign (env : Locals) (vs : List Temp) (vals : List Value) : Locals :=
  (vs.zip vals).reverse ++ env

theorem assign_cons (env : Locals) (t : Temp) (v : Value) (ts : List Temp) (vs : List Value) :
    assign env (t :: ts) (v :: vs) = assign ((t, v) :: env) ts vs := by
  simp [assign]

/-- Why an operation does not go through: the run ends, or a top-level value must be computed
first. -/
inductive Stall
  | halt (h : Halt)
  | top (id : DefnId) (pos : Position) (tail : Option Tail)

/-- The values of a top-level definition, if they have been computed. -/
def topValues (p : Program) (m : Machine) (id : DefnId) : Except Stall (List Value) :=
  match m.tops.lookup id with
  | some vals => .ok vals
  | none =>
    match p.defn id with
    | .error e => .error (.halt (.defect e))
    | .ok d =>
      match d.body with
      | .top t =>
        if id ∈ m.active then
          .error (.halt (m.fail ("top-level " ++ d.name ++ " depends on its own value")))
        else .error (.top id d.pos t.tail)
      | _ => .error (.halt (.defect (.notTopLevel d.name)))

/-- The definition that gives the value of a reference: an external stands for its
implementation. -/
def topTarget (p : Program) (m : Machine) (id : DefnId) : Except Stall DefnId :=
  let id := p.resolve id
  match p.defns[id]? with
  | some d =>
    match d.body with
    | .external e =>
      match e.impl with
      | some impl => .ok (p.resolve impl)
      | none => .error (.halt (m.fail
        ("external " ++ d.name ++ " (" ++ e.ref ++ ") has no implementation")))
    | _ => .ok id
  | none => .ok id

def topValue (p : Program) (m : Machine) (id : DefnId) (index : Nat) : Except Stall Value := do
  let id ← topTarget p m id
  let vals ← topValues p m id
  match vals[index]? with
  | some v => return v
  | none => throw (.halt (.defect (.missingTopValue index (p.nameOf id) vals.length)))

def atom (p : Program) (m : Machine) (env : Locals) (a : Atom) : Except Stall Value :=
  match a with
  | .temp t =>
    match env.lookup t with
    | some v => .ok v
    | none => .error (.halt (.defect (.unboundTemp a.render)))
  | .lit l => .ok (.ofLit l)
  | .top id index _ => topValue p m id index

def atoms (p : Program) (m : Machine) (env : Locals) (as : List Atom) : Except Stall (List Value) :=
  as.mapM (atom p m env)

/-- A number of several words, the least significant first. -/
def joinWords (size : Int) (ws : List Word) : UInt64 :=
  ws.foldr (fun w v =>
    (if 0 ≤ size ∧ size < 64 then v <<< UInt64.ofNat size.toNat else 0) ||| Word.unsigned size w) 0

/-- The words of a number of `bits` bits, the least significant first. -/
def cutWords (size : Int) (v : UInt64) (bits : Nat) : List Word :=
  if (bits : Int) < size then [v.toInt64]
  else
    (List.range ((bits + size.toNat - 1) / size.toNat)).map fun i =>
      Word.normalize size (v >>> UInt64.ofNat (size.toNat * i)).toInt64

def access (m : Machine) (a : MemAccess) (args : List Value) : List Value × Machine :=
  let addr := ((args.head?).map Value.asWord).getD 0
  if a.store then
    let v := joinWords m.size (args.tail.map Value.asWord)
    ([], { m with memory := m.memory.store addr v a.bytes })
  else ((cutWords m.size (m.memory.load addr a.bytes) (8 * a.bytes)).map .word, m)

def divide (m : Machine) (rem : Bool) (args : List Value) : Except Halt (List Value) :=
  let x := Word.normalize m.size (((args[0]?).map Value.asWord).getD 0)
  let y := Word.normalize m.size (((args[1]?).map Value.asWord).getD 0)
  if y = 0 then .error (m.fail "divide by zero error")
  else .ok [.word (Word.normalize m.size (if rem then x % y else x / y))]

def operand (m : Machine) (p : Prim) (v : Value) : Except Halt Literal :=
  match v.lit? with
  | some l => .ok l
  | none => .error (m.fail (p.name ++ " applied to " ++ v.render))

def pureCall (m : Machine) (p : Prim) (args : List Value) : Except Halt (List Value) := do
  let lits ← args.mapM (m.operand p)
  match p.fold? m.size lits with
  | some l => return [.ofLit l]
  | none => throw (m.fail ("cannot evaluate " ++ p.name))

def prim (m : Machine) (p : Prim) (args : List Value) : Except Halt (List Value × Machine) :=
  match p.op with
  | .div | .nzdiv => (m.divide false args).map fun vs => (vs, m)
  | .rem => (m.divide true args).map fun vs => (vs, m)
  | .halt => .error (m.fail "halt")
  | .loop => .error (m.fail "loop")
  | .printWord =>
    let w := Word.normalize m.size (((args.head?).map Value.asWord).getD 0)
    .ok ([], { m with printed := w :: m.printed })
  | .user => .error (m.fail ("primitive " ++ p.name ++ " has no implementation"))
  | op =>
    match op.access? with
    | some a => .ok (m.access a args)
    | none => (m.pureCall p args).map fun vs => (vs, m)

/-- What an operation comes to: values, a body to run, or a tail to evaluate. -/
inductive Effect
  | values (vs : List Value)
  | body (c : Option Code) (env : Locals)
  | tail (t : Option Tail) (env : Locals)

def orHalt {α : Type} (r : Except Halt α) : Except Stall α :=
  match r with
  | .ok a => .ok a
  | .error h => .error (.halt h)

/-- Takes an outcome that breaks no invariant. -/
def orDefect {α : Type} (r : Except Defect α) : Except Stall α :=
  match r with
  | .ok a => .ok a
  | .error e => .error (.halt (.defect e))

def enter (p : Program) (m : Machine) (env : Locals) (fn : Atom) (args : List Atom) :
    Except Stall (Effect × Machine) := do
  match ← atom p m env fn with
  | .closure id fields =>
    let vals ← atoms p m env args
    let id := p.resolve id
    let k ← orDefect (p.closure id)
    if k.args.length ≠ vals.length ∨ k.params.length ≠ fields.length then
      throw (.halt (m.fail ("closure " ++ p.nameOf id ++ " entered with " ++ toString vals.length
        ++ " arguments")))
    let d ← orDefect (p.defn id)
    return (.tail k.tail (assign (assign [] k.params fields) k.args vals), { m with pos := d.pos })
  | v => throw (.halt (m.fail ("entering " ++ v.render ++ ", which is not a closure")))

def operate (p : Program) (m : Machine) (env : Locals) (t : Tail) :
    Except Stall (Effect × Machine) := do
  match t with
  | .ret args => return (.values (← atoms p m env args), m)
  | .call c =>
    let vals ← atoms p m env c.args
    let id := p.resolve c.block
    let b ← orDefect (p.block id)
    let d ← orDefect (p.defn id)
    return (.body b.body (assign [] b.params vals), { m with pos := d.pos })
  | .prim q args _ =>
    let vals ← atoms p m env args
    let (vs, m) ← orHalt (m.prim q vals)
    return (.values vs, m)
  | .alloc k args _ => return (.values [.closure (p.resolve k) (← atoms p m env args)], m)
  | .data k args _ => return (.values [.data k (← atoms p m env args)], m)
  | .enter fn args => enter p m env fn args
  | .sel k field arg _ =>
    let v ← atom p m env arg
    let found := match v with
      | .data _ fields => fields[field.toNat]?
      | _ => none
    match found with
    | some f => return (.values [f], m)
    | none => throw (.halt (m.fail
      ("cannot select field " ++ toString field ++ " of " ++ k.name ++ " from " ++ v.render)))

/-- The call that a branch on a truth value makes. -/
def chooseFlag (p : Program) (m : Machine) (env : Locals) (cond : Atom) (t f : BlockCall) :
    Except Stall BlockCall := do
  match ← atom p m env cond with
  | .flag b => return if b then t else f
  | v => throw (.halt (m.fail ("branching on " ++ v.render ++ ", which is not a flag")))

/-- The call that a branch on a constructor makes. Constructors are told apart by their tags. -/
def chooseAlt (p : Program) (m : Machine) (env : Locals) (scrut : Atom)
    (alts : List (Cfun × BlockCall)) (default : Option BlockCall) : Except Stall BlockCall := do
  match ← atom p m env scrut with
  | .data k _ =>
    match alts.find? (fun a => a.1.tag = k.tag), default with
    | some (_, c), _ => return c
    | none, some c => return c
    | none, none => throw (.halt (m.fail ("no alternative for " ++ k.name)))
  | v => throw (.halt (m.fail ("case on " ++ v.render ++ ", which is not a data value")))

end Machine

end Mil
