import Mil.Optimize.Pass

/-!
Removal of parameters that are not needed. A block or a closure needs a parameter if its code reads
it other than as an argument, or passes it where the callee needs it. The needs of all definitions
are the least that satisfy this; entrypoints need all their parameters. Parameters that are not
needed are removed, and every call and allocation drops the operands that stood for them.
-/

namespace Mil.Optimize

abbrev Needs := List (DefnId × List Bool)

namespace Needs

def keep {α : Type} (xs : List α) (needed : List Bool) : List α :=
  ((xs.zip needed).filter Prod.snd).map Prod.fst

/-- The operands that a tail needs: those of a call or an allocation only where the target needs
them. -/
def operands (needs : Needs) (t : Tail) : List Atom :=
  match t.target? with
  | none => t.atoms
  | some id =>
    match needs.lookup id with
    | none => t.atoms
    | some needed => keep t.atoms needed ++ t.atoms.drop needed.length

def codeOperands (needs : Needs) : Code → List Atom
  | .bind _ t next => needs.operands t ++ needs.codeOperands next
  | .done t => needs.operands t
  | .branch cond c d => cond :: needs.operands (.call c) ++ needs.operands (.call d)
  | .case scrut alts default =>
    scrut :: (Code.case scrut alts default).calls.flatMap fun c => needs.operands (.call c)

def defnOperands (needs : Needs) : DefnBody → List Atom
  | .block b => (b.body.map needs.codeOperands).getD []
  | .closure k => (k.tail.map needs.operands).getD []
  | _ => []

def hasParams : DefnBody → Bool
  | .block _ => true
  | .closure _ => true
  | _ => false

def start (p : Program) (ids : List DefnId) : Needs :=
  ids.filterMap fun id => do
    let d ← p.defns[id]?
    if hasParams d.body then some (id, d.body.params.map fun _ => d.entry) else none

/-- Marks the parameters that are among the operands. Of a parameter that stands several times only
the first is marked. -/
def mark (operands : List Atom) : List Temp → List Temp → List Bool → List Bool
  | before, v :: vs, b :: bs =>
    (b || (operands.contains (.temp v) && v ∉ before)) :: mark operands (v :: before) vs bs
  | _, _, bs => bs

def update (p : Program) (needs : Needs) (id : DefnId) (needed : List Bool) : List Bool :=
  match p.defns[id]? with
  | some d => if d.entry then needed else mark (needs.defnOperands d.body) [] d.body.params needed
  | none => needed

def round (p : Program) (needs : Needs) : Needs :=
  needs.map fun (id, needed) => (id, update p needs id needed)

/-- Repeats rounds until nothing changes, at most `fuel` times. -/
def close (p : Program) : Nat → Needs → Needs
  | 0, needs => needs
  | fuel + 1, needs =>
    let next := round p needs
    if next = needs then needs else close p fuel next

/-- The least needs of some definitions. Every round but the last marks a parameter. -/
def least (p : Program) (ids : List DefnId) : Needs :=
  let needs := start p ids
  close p ((needs.flatMap Prod.snd).length + 1) needs

end Needs

def shrink (s : Store) (needed : List Bool) : DefnBody → DefnBody
  | .block b =>
    let type := b.declared.map fun t => ⟨[], .tuple (Needs.keep (t.domTypes s) needed), t.rng⟩
    .block { b with params := Needs.keep b.params needed, declared := type, defining := type }
  | .closure k =>
    let type := k.declared.map fun t => ⟨[], Needs.keep t.stored needed, t.result⟩
    .closure
      { k with params := Needs.keep k.params needed, declared := type, defining := type, derived := [] }
  | body => body

/-- A call without the operands for parameters that were removed. -/
def shortenCall (p : Program) (needs : Needs) (c : BlockCall) : Except Defect BlockCall := do
  let b ← p.block c.block
  if b.params.length = c.args.length then return c
  else return ⟨c.block, Needs.keep c.args ((needs.lookup c.block).getD []), b.declared⟩

/-- A tail without the operands for parameters that were removed. -/
def shortenTail (p : Program) (needs : Needs) (t : Tail) : Except Defect Tail :=
  match t with
  | .call c => Tail.call <$> shortenCall p needs c
  | .alloc id args inst => do
    let k ← p.closure id
    if k.params.length = args.length then return .alloc id args inst
    else return .alloc id (Needs.keep args ((needs.lookup id).getD [])) k.declared
  | t => return t

/-- A body without the operands for parameters that were removed. -/
def shortenCode (p : Program) (needs : Needs) : Code → Except Defect Code
  | .bind vars t next => return .bind vars (← shortenTail p needs t) (← shortenCode p needs next)
  | .done t => return .done (← shortenTail p needs t)
  | .branch cond c d => return .branch cond (← shortenCall p needs c) (← shortenCall p needs d)
  | .case scrut alts default => do
    let alts ← alts.mapM fun (k, c) => do
      let c ← shortenCall p needs c
      return (k, c)
    return .case scrut alts (← default.mapM (shortenCall p needs))

/-- Removes the parameters that are not needed from every definition that can be reached; whether
there were any. -/
def removeUnused (p : Program) : Except Defect (Bool × Program) :=
  let ids := p.reachable
  let needs := Needs.least p ids
  let shrinking := needs.filter fun (_, needed) => needed.any fun b => !b
  if shrinking.isEmpty then .ok (false, p)
  else
    let p := shrinking.foldl
      (fun p (id, needed) => p.modify id fun d => { d with body := shrink p.store needed d.body }) p
    let shorten := ids.forM
      (PassM.onBody (fun c => liftM (shortenCode p needs c)) fun t => liftM (shortenTail p needs t))
    (PassM.run shorten p).map fun (_, p) => (true, p)

end Mil.Optimize
