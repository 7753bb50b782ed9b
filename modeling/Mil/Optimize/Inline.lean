import Mil.Optimize.Pass

/-!
Inlining. A call of a small block that is not recursive is replaced by a copy of its body. A call at
the end of a body may take any copy; a call whose results are bound takes only a copy that ends in a
tail, and a definition that is a single tail takes only a copy that is a single tail.
-/

namespace Mil

namespace Code

def isStraight : Code → Bool
  | .bind _ _ next => next.isStraight
  | .done _ => true
  | _ => false

/-- Binds the results of the final tail of a straight body and goes on with more code. -/
def splice (vars : List Temp) (rest : Code) : Code → Code
  | .bind vs t next => .bind vs t (splice vars rest next)
  | .done t => .bind vars t rest
  | c => c

end Code

namespace Optimize

namespace Inline

/-- What decides which calls are inlined. -/
structure Limits where
  size : Int
  recursive : List DefnId

/-- The block that a tail calls and its body, if the call can be inlined in the given definition. -/
def target? (limits : Limits) (self : Option DefnId) (t : Tail) :
    PassM (Option (Replacement × Code)) := do
  match t with
  | .call c =>
    if self = some c.block ∨ c.block ∈ limits.recursive then return none
    else
      let b ← PassM.block c.block
      match b.body with
      | none => return none
      | some body =>
        if b.failed ∨ b.params.length ≠ c.args.length ∨ limits.size < body.size then return none
        else return some (Replacement.extend [] b.params c.args, body)
  | _ => return none

def copy (env : Replacement) (c : Code) : PassM Code :=
  PassM.onProgram fun p =>
    let (c, temps) := c.copy env p.temps
    (c, { p with temps })

def code (limits : Limits) (self : DefnId) : Code → PassM Code
  | .bind vars t next => do
    let next ← code limits self next
    match ← target? limits (some self) t with
    | some (env, body) =>
      if body.isStraight then
        PassM.changed
        return Code.splice vars next (← copy env body)
      else return .bind vars t next
    | none => return .bind vars t next
  | .done t => do
    match ← target? limits (some self) t with
    | some (env, body) =>
      PassM.changed
      copy env body
    | none => return .done t
  | c => return c

def tail (limits : Limits) (t : Tail) : PassM Tail := do
  match ← target? limits none t with
  | some (env, .done t) => PassM.change (t.mapAtoms env.atom)
  | _ => return t

end Inline

/-- Inlines calls of blocks up to a size, in every definition that can be reached; whether anything
was changed. -/
def inline (size : Int) (p : Program) : Except Defect (Bool × Program) :=
  let ids := p.reachable
  let limits : Inline.Limits := ⟨size, ((p.components ids).filter p.isRecursive).flatten⟩
  PassM.run (ids.forM fun id => PassM.onBody (Inline.code limits id) (Inline.tail limits) id) p

end Optimize

end Mil
