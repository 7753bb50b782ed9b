import Mil.Rtl.Basic

/-!
Passes over the code of a function. A register is live before an instruction if some path from it reads
the register before any instruction on the path writes it. The sets are the least that satisfy the
equations for one instruction; they are found by going through the graph backwards, again and again. An
operation or load whose result is not live after it has no use and is removed.

Edges to an instruction that only jumps go to where the jumps lead; after that, instructions that cannot
be reached are dropped. A cycle of jumps leads to the node where it is entered the second time, so that
an endless loop stays one.
-/

namespace Mil.Rtl

/-! ### Live registers -/

/-- Sets of registers, in increasing order and without repetition. -/
abbrev RegSet := List Reg

namespace RegSet

def insert (r : Reg) : RegSet → RegSet
  | [] => [r]
  | x :: xs => if r < x then r :: x :: xs else if r = x then x :: xs else x :: insert r xs

def insertAll (s : RegSet) (rs : List Reg) : RegSet := rs.foldl (fun s r => insert r s) s

def ofList (rs : List Reg) : RegSet := insertAll [] rs

end RegSet

abbrev Live := List (Node × RegSet)

namespace Live

def before (live : Live) (n : Node) : RegSet := (live.lookup n).getD []

def after (live : Live) (i : Instr) : RegSet :=
  i.successors.foldl (fun s n => s.insertAll (live.before n)) []

def through (i : Instr) (out : RegSet) : RegSet :=
  RegSet.insertAll (out.filter fun r => r ∉ i.defs) i.uses

/-- One pass backwards through a graph. Nodes further down in the graph already have their new
sets. -/
def round (live : Live) : Graph → Live
  | [] => []
  | (n, i) :: rest =>
    let found := round live rest
    (n, through i (after (found ++ live) i)) :: found

/-- Repeats the pass until nothing changes, at most `fuel` times. -/
def close (g : Graph) : Nat → Live → Live
  | 0, live => live
  | fuel + 1, live =>
    let next := round live g
    if next = live then live else close g fuel next

def bound (g : Graph) : Nat := g.length * (g.flatMap fun (_, i) => i.uses).length

def ofGraph (g : Graph) : Live := close g (bound g + 1) (g.map fun (n, _) => (n, []))

end Live

/-- The register that an instruction without other effect writes, and what comes next. -/
def Instr.result? : Instr → Option (Reg × Node)
  | .op _ _ d s => some (d, s)
  | .load _ _ _ d s => some (d, s)
  | _ => none

namespace Function

/-- Replaces each operation and load whose result is not live by a jump; the number of them comes
second. -/
def sweep (f : Function) : Function × Nat :=
  let live := Live.ofGraph f.code
  let swept := f.code.map fun (n, i) =>
    match i.result? with
    | some (d, s) => if d ∈ live.after i then ((n, i), false) else ((n, Instr.nop s), true)
    | none => ((n, i), false)
  ({ f with code := swept.map Prod.fst }, swept.countP Prod.snd)

/-- Sweeps until nothing is found, at most `fuel` times. -/
def sweepAll : Nat → Function → Nat → Function × Nat
  | 0, f, removed => (f, removed)
  | fuel + 1, f, removed =>
    let (g, found) := f.sweep
    if found = 0 then (f, removed) else sweepAll fuel g (removed + found)

/-- Removes all operations and loads without use; their number comes second. -/
def removeDead (f : Function) : Function × Nat := sweepAll (f.code.length + 1) f 0

end Function

/-! ### Short cuts through jumps -/

namespace Graph

/-- Where the jump at a node goes, if there is only a jump. -/
def jumpAt? (g : Graph) (n : Node) : Option Node :=
  match g.lookup n with
  | some (.nop s) => some s
  | _ => none

/-- Follows jumps until an instruction of another kind or a node that was met before, at most `fuel`
times. -/
def followWith (g : Graph) : Nat → List Node → Node → Node
  | 0, _, n => n
  | fuel + 1, met, n =>
    if n ∈ met then n
    else
      match g.jumpAt? n with
      | some s => followWith g fuel (n :: met) s
      | none => n

def follow (g : Graph) (n : Node) : Node := g.followWith (g.length + 1) [] n

/-- Adds to `seen` the nodes that can be reached from the frontier in at most `fuel` steps. -/
def spread (g : Graph) : Nat → List Node → List Node → List Node
  | 0, seen, _ => seen
  | fuel + 1, seen, frontier =>
    match (frontier.filter fun n => n ∉ seen).eraseDups with
    | [] => seen
    | new =>
      spread g fuel (new ++ seen) (new.flatMap fun n => ((g.lookup n).map Instr.successors).getD [])

def reachable (g : Graph) (n : Node) : List Node := g.spread (g.length + 1) [] [n]

end Graph

/-- Cuts short the jumps of a function and drops what cannot be reached. A function without code is
left alone. -/
def Function.tunnel (f : Function) : Function :=
  if f.code.isEmpty then f
  else
    let code : Graph := f.code.map fun (n, i) => (n, i.mapSuccessors f.code.follow)
    let entry := f.code.follow f.entry
    let reached := code.reachable entry
    { f with entry, code := code.filter fun (n, _) => n ∈ reached }

end Mil.Rtl
