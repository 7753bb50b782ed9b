import Mil.Optimize.Facts
import Mil.Optimize.Pass

/-!
Closures derived from closures. When a closure is allocated with stored values that are known
constructor applications, the fields of those can be stored instead of the values. The derived
closure calls a block that builds the values again and goes on as the closure does. A closure
remembers what was derived from it, so that one shape is derived once.
-/

namespace Mil.Optimize

/-- What is known about one stored operand: nothing, or the constructor that built it, with its
operands and the type at which it was made. -/
abbrev Known := Option (Cfun × List Atom × Option AllocType)

def shapeOf (known : List Known) : List (Option Cfun) := known.map fun k => k.map Prod.fst

/-- The types of what is stored for one parameter: the fields of a known value, or the parameter's
own type. -/
def storedTypes (own : Option Ty) : Known → List (Option Ty)
  | none => [own]
  | some (_, _, inst) => ((inst.map AllocType.stored).getD []).map some

/-- Gives each stored parameter a value made from the temporaries that carry it, one after the
other: bindings that build the known values, and what each parameter is replaced by. -/
def rebuild : List (Temp × Known) → List Temp → PassM (List (Temp × Tail) × Replacement)
  | [], _ => return ([], [])
  | (param, none) :: rest, carriers => do
    let (binds, env) ← rebuild rest (carriers.drop 1)
    return (binds, (carriers.take 1).map (fun c => (param, Atom.temp c)) ++ env)
  | (param, some (k, args, inst)) :: rest, carriers => do
    let own := (← get).program.temps.typeOf param
    let vs ← PassM.freshTemps [own]
    let t := Tail.data k ((carriers.take args.length).map .temp) inst
    let (binds, env) ← rebuild rest (carriers.drop args.length)
    return (vs.map (fun v => (v, t)) ++ binds, vs.map (fun v => (param, Atom.temp v)) ++ env)

def makeDerived (id : DefnId) (d : Defn) (k : Closure) (known : List Known) : PassM DefnId := do
  let temps := (← get).program.temps
  let types := (k.params.zip known).flatMap fun (v, e) => storedTypes (temps.typeOf v) e
  let argTypes := k.args.map temps.typeOf
  let stored ← PassM.freshTemps types
  let inner ← PassM.freshTemps types
  let args ← PassM.freshTemps argTypes
  let innerArgs ← PassM.freshTemps argTypes
  let (binds, env) ← rebuild (k.params.zip known) inner
  let tail ← match k.tail with
    | some t => pure t
    | none => throw .copiedNoTail
  let last := Code.done (tail.mapAtoms (env.extend k.args (innerArgs.map .temp)).atom)
  let body := binds.foldr (fun (v, t) next => Code.bind [v] t next) last
  let result := (k.declared.map AllocType.result).getD (.tuple [])
  let rng ← match ((← get).program.store.resolve result).asFunc? with
    | some (_, rng) => pure rng
    | none => throw (.closureNotFunction d.name)
  let name := d.name ++ "_k" ++ toString k.derived.length
  let dom := (types ++ argTypes).map fun t => t.getD (.tuple [])
  let blockType : BlockType := ⟨[], .tuple dom, rng⟩
  let block ← PassM.add
    (.new (name ++ "b") d.pos (.block (.typed (inner ++ innerArgs) (some body) blockType)))
  let call : BlockCall := ⟨block, (stored ++ args).map .temp, some blockType⟩
  let type : AllocType := ⟨[], types.map (fun t => t.getD (.tuple [])), result⟩
  let derived ← PassM.add (.new name d.pos (.closure (.typed stored args (some (.call call)) type)))
  PassM.setBody id (.closure { k with derived := k.derived ++ [⟨shapeOf known, derived⟩] })
  return derived

def derive (id : DefnId) (known : List Known) : PassM DefnId := do
  let d ← PassM.definition id
  let k ← PassM.closure id
  match k.derived.find? fun e => e.shape == shapeOf known with
  | some e => return e.closure
  | none =>
    if known.length ≠ k.params.length then
      throw (.shapeLength known.length d.name k.params.length)
    makeDerived id d k known

end Mil.Optimize
