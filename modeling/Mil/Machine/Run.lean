import Mil.Machine.Basic

/-!
Runs of the interpreter. What remains to be done after the current tail is a stack of frames: the
rest of a body, or an operation that waits for a top-level value. Calls in tail position push
nothing. One transition evaluates one tail, so the number of transitions is the number of steps.
-/

namespace Mil.Machine

/-- What is taken up again once a top-level value has been computed. -/
inductive Resume
  | operation (t : Tail) (env : Locals)
  | code (c : Code) (env : Locals)

/-- What remains to be done with the values of a tail: bind them and go on with a body, or keep them
as those of a top-level definition and go back to where the machine was. -/
inductive Frame
  | bind (vars : List Temp) (next : Code) (env : Locals)
  | top (id : DefnId) (saved : Position) (resume : Option Resume)

inductive Next
  | tail (t : Option Tail) (env : Locals) (stack : List Frame)
  | finish (vals : List Value)
  | halt (h : Halt)

/-- Starts to compute a top-level value, or ends the run. -/
def onStall (m : Machine) (s : Stall) (resume : Option Resume) (stack : List Frame) :
    Next × Machine :=
  match s with
  | .halt h => (.halt h, m)
  | .top id pos t =>
    (.tail t [] (.top id m.pos resume :: stack), { m with pos, active := id :: m.active })

def enterCode (p : Program) (m : Machine) (c : Code) (env : Locals) (stack : List Frame) :
    Next × Machine :=
  match c with
  | .bind vars t next => (.tail (some t) env (.bind vars next env :: stack), m)
  | .done t => (.tail (some t) env stack, m)
  | .branch cond t f =>
    match chooseFlag p m env cond t f with
    | .ok call => (.tail (some (.call call)) env stack, m)
    | .error s => onStall m s (some (.code c env)) stack
  | .case scrut alts default =>
    match chooseAlt p m env scrut alts default with
    | .ok call => (.tail (some (.call call)) env stack, m)
    | .error s => onStall m s (some (.code c env)) stack

def enterBody (p : Program) (m : Machine) (c : Option Code) (env : Locals) (stack : List Frame) :
    Next × Machine :=
  match c with
  | some c => enterCode p m c env stack
  | none => (.halt (.defect .missingBody), m)

def deliver (p : Program) : List Frame → Machine → List Value → Next × Machine
  | [], m, vals => (.finish vals, m)
  | .bind vars next env :: stack, m, vals =>
    if vals.length ≠ vars.length then
      (.halt (.defect (.bindingCount vars.length vals.length)), m)
    else enterCode p m next (assign env vars vals) stack
  | .top id saved resume :: stack, m, vals =>
    let m := { m with
      pos := saved, tops := (id, vals) :: m.tops, active := m.active.erase id }
    match resume with
    | none => deliver p stack m vals
    | some (.code c env) => enterCode p m c env stack
    | some (.operation t env) =>
      match operate p m env t with
      | .error s => onStall m s (some (.operation t env)) stack
      | .ok (.values vals, m) => deliver p stack m vals
      | .ok (.body c env, m) => enterBody p m c env stack
      | .ok (.tail t env, m) => (.tail t env stack, m)

def perform (p : Program) (m : Machine) (t : Tail) (env : Locals) (stack : List Frame) :
    Next × Machine :=
  match operate p m env t with
  | .error s => onStall m s (some (.operation t env)) stack
  | .ok (.values vals, m) => deliver p stack m vals
  | .ok (.body c env, m) => enterBody p m c env stack
  | .ok (.tail t env, m) => (.tail t env stack, m)

def outOfFuel (m : Machine) : Halt := m.fail ("out of fuel after " ++ toString m.fuel ++ " steps")

def step (p : Program) (m : Machine) (t : Option Tail) (env : Locals) (stack : List Frame) :
    Next × Machine :=
  let m := { m with steps := m.steps + 1 }
  if 0 < m.fuel ∧ m.fuel < m.steps then (.halt m.outOfFuel, m)
  else
    match t with
    | some t => perform p m t env stack
    | none => (.halt (.defect .missingTail), m)

/-- Goes on until the run ends, for at most `budget` steps. -/
def loop (p : Program) : Nat → Next → Machine → Except Halt (List Value) × Machine
  | _, .finish vals, m => (.ok vals, m)
  | _, .halt h, m => (.error h, m)
  | 0, .tail _ _ _, m => (.error m.outOfFuel, m)
  | budget + 1, .tail t env stack, m =>
    let (next, m) := step p m t env stack
    loop p budget next m

/-- The start of a run of a definition: a block with its arguments, or a top-level definition. -/
def start (p : Program) (m : Machine) (id : DefnId) (args : List Value) : Next × Machine :=
  let id := p.resolve id
  match p.defn id with
  | .error e => (.halt (.defect e), m)
  | .ok d =>
    let m := { m with pos := d.pos }
    match d.body with
    | .block b =>
      if args.length ≠ b.params.length then
        (.halt (m.fail (d.name ++ " expects " ++ toString b.params.length ++ " arguments, got "
          ++ toString args.length)), m)
      else enterBody p m b.body (assign [] b.params args) []
    | .top _ =>
      match topValues p m id with
      | .ok vals => (.finish vals, m)
      | .error s => onStall m s none []
    | _ => (.halt (m.fail (d.name ++ " cannot be run")), m)

/-- More steps than a run with a positive fuel can take; without fuel, more than any run takes. -/
def budget (m : Machine) : Nat :=
  if 0 < m.fuel then (m.fuel - m.steps).toNat + 1 else 0x10000000000000000

/-- Runs a definition. What is printed is collected anew. -/
def run (p : Program) (m : Machine) (id : DefnId) (args : List Value) :
    Except Halt (List Value) × Machine :=
  let m := { m with printed := [], active := [] }
  let (next, m) := start p m id args
  let (r, m) := loop p m.budget next m
  (r, { m with active := [] })

end Mil.Machine
