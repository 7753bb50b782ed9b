import Mil.Program.Graph

/-!
Parameters that stay the same in a loop. In a recursive group of blocks, the source of a parameter
is the set of parameters of the group that flow into it along calls, itself included, or nothing
definite if other values flow into it or two parameters of one block. A parameter with a definite
source keeps the value that it had on entry to the group.
-/

namespace Mil.Optimize

structure Param where
  defn : DefnId
  index : Nat
deriving DecidableEq

/-- Where the values of a parameter come from. -/
inductive Source
  | join (params : List Param)
  | any
deriving DecidableEq

namespace Source

/-- Adds one parameter to a source; two parameters of one block are not consistent. -/
def add (ps : List Param) (q : Param) : Source :=
  match ps.find? fun r => r.defn = q.defn with
  | some r => if r.index = q.index then .join ps else .any
  | none => .join (ps ++ [q])

/-- The source of values that come from either of two sources. -/
def merge : Source → Source → Source
  | .any, _ => .any
  | .join _, .any => .any
  | .join ps, .join qs =>
    qs.foldl (fun s q => match s with | .any => .any | .join ps => add ps q) (.join ps)

def render (p : Program) : Source → String
  | .any => "any"
  | .join ps => " | ".intercalate (ps.map fun q => p.nameOf q.defn ++ "." ++ toString q.index)

end Source

abbrev Sources := List (DefnId × List Source)

namespace Sources

def source? (s : Sources) (id : DefnId) (index : Nat) : Option Source :=
  (s.lookup id).bind fun srcs => srcs[index]?

/-- Does a parameter keep the value that it had on entry to its group? -/
def isInvariant (s : Sources) (id : DefnId) (index : Nat) : Bool :=
  match s.source? id index with
  | some (.join _) => true
  | _ => false

def ofAtom (srcs : List Source) (params : List Temp) (a : Atom) : Source :=
  match a with
  | .temp t => if t ∈ params then (srcs[params.idxOf t]?).getD .any else .any
  | _ => .any

def flow (s : Sources) (caller : DefnId) (params : List Temp) (callee : DefnId) (index : Nat)
    (a : Atom) : Sources :=
  let incoming := ofAtom ((s.lookup caller).getD []) params a
  s.map fun (id, srcs) => (id, if id = callee then srcs.modify index (·.merge incoming) else srcs)

def flowCall (s : Sources) (caller : DefnId) (params : List Temp) (c : BlockCall) : Sources :=
  c.args.zipIdx.foldl (fun s (a, i) => s.flow caller params c.block i a) s

def calls : Code → List BlockCall
  | .bind _ (.call c) next => c :: calls next
  | .bind _ _ next => calls next
  | .done (.call c) => [c]
  | c => c.calls

/-- Lets all operands of calls inside a group flow. Calls that leave the group have no effect, since
only the blocks of the group have sources. -/
def round (group : List (DefnId × Block)) (s : Sources) : Sources :=
  group.foldl (fun s (id, b) =>
    ((b.body.map calls).getD []).foldl (fun s c => s.flowCall id b.params c) s) s

/-- Repeats rounds until nothing changes, at most `fuel` times. -/
def close (group : List (DefnId × Block)) : Nat → Sources → Sources
  | 0, s => s
  | fuel + 1, s =>
    let next := round group s
    if next = s then s else close group fuel next

/-- The sources of a recursive group. A source changes at most once for each block of the group and
once more, so the number of rounds is bounded. -/
def ofGroup (group : List (DefnId × Block)) : Sources :=
  let start := group.map fun (id, b) => (id, (List.range b.params.length).map fun i => .join [⟨id, i⟩])
  let params := (group.flatMap fun (_, b) => b.params).length
  close group (params * (group.length + 1) + 1) start

end Sources

end Mil.Optimize

namespace Mil.Program

/-- The sources of the parameters of all recursive blocks that can be reached, by increasing number
of the block. -/
def sources (p : Program) : Optimize.Sources :=
  let groups := (p.components p.reachable).filter p.isRecursive
  let found := groups.flatMap fun ids =>
    Optimize.Sources.ofGroup (ids.filterMap fun id => (p.block? id).map fun b => (id, b))
  found.mergeSort fun a b => a.1 ≤ b.1

def printSources (p : Program) (s : Optimize.Sources) : String :=
  String.join (s.flatMap fun (id, srcs) => srcs.zipIdx.map fun (src, i) =>
    p.nameOf id ++ "." ++ toString i ++ ": " ++ src.render p ++ "\n")

end Mil.Program
