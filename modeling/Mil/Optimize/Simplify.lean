import Mil.Optimize.Derive

/-!
Simplification of bodies by the facts that hold in them: constants are folded, neutral operands
dropped, a negated comparison replaced by the opposite one, repeated expressions shared, known
closures entered and known constructors taken apart; after that, bindings that nobody needs are
removed.
-/

namespace Mil.Optimize.Simplify

open PassM (change changed)

def neutral? (op : PrimOp) (x y : Atom) : Option Atom :=
  let zero := Atom.word 0
  let one := Atom.word 1
  match op with
  | .add | .or | .xor => if y = zero then some x else if x = zero then some y else none
  | .sub | .shl | .lshr | .ashr => if y = zero then some x else none
  | .mul => if y = one then some x else if x = one then some y else none
  | _ => none

/-- The operand that a call of a pure primitive with a neutral operand amounts to. -/
def identity? (p : Prim) (args : List Atom) : Option Atom :=
  match p.purity, args with
  | .pure, [x, y] => neutral? p.op x y
  | _, _ => none

def opposite? (f : Facts) (p : Prim) (args : List Atom) : Option (Prim × List Atom) :=
  match p.op, args with
  | .bnot, a :: _ => do
    let (q, operands) ← f.primOf? a
    return (← q.dual?, operands)
  | _, _ => none

def prim (size : Int) (f : Facts) (p : Prim) (args : List Atom) (inst : Option BlockType) :
    PassM Tail :=
  match args.mapM Atom.lit? >>= p.fold? size with
  | some l => change (.ret [.lit l])
  | none =>
    match identity? p args with
    | some a => change (.ret [a])
    | none =>
      match opposite? f p args with
      | some (q, operands) => change (.prim q operands (some q.type))
      | none => return .prim p args inst

/-- Enters a known closure: its tail with parameters and arguments replaced. -/
def enter (f : Facts) (fn : Atom) (args : List Atom) : PassM Tail := do
  match f.closureOf? fn with
  | none => return .enter fn args
  | some (id, stored) =>
    let k ← PassM.closure id
    match k.tail with
    | none => return .enter fn args
    | some t =>
      if k.args.length = args.length ∧ k.params.length = stored.length then
        let env := Replacement.extend (Replacement.extend [] k.params stored) k.args args
        change (t.mapAtoms env.atom)
      else return .enter fn args

def select (f : Facts) (k : Cfun) (field : Int) (arg : Atom) (inst : Option AllocType) :
    PassM Tail :=
  match f.dataOf? arg with
  | some (k', args, _) =>
    match if k' == k then args[field.toNat]? else none with
    | some a => change (.ret [a])
    | none => return .sel k field arg inst
  | none => return .sel k field arg inst

/-- Allocates a derived closure if any of the stored values is a known constructor application. -/
def allocate (f : Facts) (id : DefnId) (args : List Atom) (inst : Option AllocType) :
    PassM Tail := do
  let known : List Known := args.map f.dataOf?
  if known.any Option.isSome then
    let derived ← derive id known
    let k ← PassM.closure derived
    let stored := (args.zip known).flatMap fun (a, e) =>
      match e with
      | some (_, fields, _) => fields
      | none => [a]
    change (.alloc derived stored k.declared)
  else return .alloc id args inst

def tail (size : Int) (f : Facts) (t : Tail) : PassM Tail :=
  match t.mapAtoms f.atom with
  | .prim p args inst => prim size f p args inst
  | .enter fn args => enter f fn args
  | .sel k field arg inst => select f k field arg inst
  | .alloc id args inst => allocate f id args inst
  | t => return t

/-- Simplifies a branch on a truth value: a known one decides it, and a negated one swaps its
sides. -/
def branch (f : Facts) (cond : Atom) (ifTrue ifFalse : BlockCall) : PassM Code :=
  match cond with
  | .lit (.flag b) => change (.done (.call (if b then ifTrue else ifFalse)))
  | cond =>
    match f.primOf? cond with
    | some (p, a :: _) =>
      if p.op = .bnot then change (.branch a ifFalse ifTrue)
      else return .branch cond ifTrue ifFalse
    | _ => return .branch cond ifTrue ifFalse

/-- Simplifies a branch on a constructor: a known one decides it. -/
def choose (f : Facts) (scrut : Atom) (alts : List (Cfun × BlockCall)) (default : Option BlockCall) :
    PassM Code :=
  match f.dataOf? scrut with
  | some (k, _, _) =>
    match ((alts.find? fun (k', _) => k' == k).map Prod.snd).or default with
    | some c => change (.done (.call c))
    | none => return .case scrut alts default
  | none => return .case scrut alts default

def code (size : Int) (f : Facts) : Code → PassM Code
  | .bind vars t next => do
    let t ← tail size f t
    if t.doesntReturn then change (.done t)
    else
      let same := match t with
        | .ret args => if args.length = vars.length then some args else none
        | t => (f.earlier? t vars.length).map fun vs => vs.map Atom.temp
      match same with
      | some args => do
        changed
        code size (f.rename vars args) next
      | none => return .bind vars t (← code size (f.bind vars t) next)
  | .done t => return .done (← tail size f t)
  | .branch cond ifTrue ifFalse =>
    branch f (f.atom cond) (ifTrue.mapAtoms f.atom) (ifFalse.mapAtoms f.atom)
  | .case scrut alts default =>
    choose f (f.atom scrut) (alts.map fun (k, c) => (k, c.mapAtoms f.atom))
      (default.map (·.mapAtoms f.atom))

/-- Removes the bindings without effect whose results are not used further down; the number removed
comes second. -/
def removeDead : Code → Code × Nat
  | .bind vars t next =>
    let (next, n) := removeDead next
    if t.hasNoEffect && vars.all fun v => !next.reads v then (next, n + 1)
    else (.bind vars t next, n)
  | c => (c, 0)

def body (size : Int) (c : Code) : PassM Code := do
  let (c, removed) := removeDead (← code size .empty c)
  modify fun s => { s with changes := s.changes + removed }
  return c

end Mil.Optimize.Simplify

namespace Mil.Optimize

/-- Simplifies every definition that can be reached; whether anything was changed. -/
def simplify (size : Int) (p : Program) : Except Defect (Bool × Program) :=
  PassM.run (p.reachable.forM (PassM.onBody (Simplify.body size) (Simplify.tail size .empty))) p

end Mil.Optimize
