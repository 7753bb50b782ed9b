import Mil.Program.Graph

/-!
Which blocks become functions. Entrypoints do, blocks whose results are bound, and blocks that a
closure or a top-level definition calls. Any other block is only jumped to: it becomes a part of the
function that jumps to it, unless jumps reach it from two functions; then it becomes a function too.
-/

namespace Mil.Rtl.Roots

def jumps : Code → List DefnId
  | .bind _ _ next => jumps next
  | .done (.call c) => [c.block]
  | c => c.calls.map BlockCall.block

def bound : Code → List DefnId
  | .bind _ (.call c) next => c.block :: bound next
  | .bind _ _ next => bound next
  | _ => []

def called : Option Tail → List DefnId
  | some (.call c) => [c.block]
  | _ => []

def jumpsOf (p : Mil.Program) (id : DefnId) : List DefnId :=
  match (p.block? id).bind Block.body with
  | some c => (jumps c).map p.resolve
  | none => []

def required (p : Mil.Program) (id : DefnId) : List DefnId :=
  match p.defns[id]? with
  | none => []
  | some d =>
    match d.body with
    | .block b =>
      (if d.entry then [id] else []) ++ ((b.body.map bound).getD []).map p.resolve
    | .closure k => (called k.tail).map p.resolve
    | .top t => (called t.tail).map p.resolve
    | .external _ => []

/-- The search for blocks that two functions jump to: the functions so far, the function that owns
each block that was met, and whether a function was added. -/
structure Search where
  roots : List DefnId
  owners : List (DefnId × DefnId)
  changed : Bool

/-- Goes through the blocks that a function jumps to, at most `fuel` of them; the last that was
found comes first. -/
def claim (next : DefnId → List DefnId) (root : DefnId) :
    Nat → List DefnId → List DefnId → Search → Search
  | 0, _, _, s => s
  | _ + 1, _, [], s => s
  | fuel + 1, seen, b :: work, s =>
    if b ∈ seen ∨ b ∈ s.roots then claim next root fuel seen work s
    else
      match s.owners.lookup b with
      | some owner =>
        if owner ≠ root then
          claim next root fuel (b :: seen) work { s with roots := b :: s.roots, changed := true }
        else claim next root fuel (b :: seen) ((next b).reverse ++ work) s
      | none =>
        claim next root fuel (b :: seen) ((next b).reverse ++ work)
          { s with owners := (b, root) :: s.owners }

/-- Goes through all functions, in the order of their numbers. -/
def claimAll (next : DefnId → List DefnId) (fuel : Nat) (roots : List DefnId) : Search :=
  (roots.mergeSort (· ≤ ·)).foldl
    (fun s r => claim next r fuel [r] (next r).reverse s) ⟨roots, [], false⟩

/-- Repeats the search until it adds nothing, at most `rounds` times. -/
def close (next : DefnId → List DefnId) (fuel : Nat) : Nat → List DefnId → List DefnId
  | 0, roots => roots
  | rounds + 1, roots =>
    let s := claimAll next fuel roots
    if s.changed then close next fuel rounds s.roots else s.roots

/-- The blocks among some definitions that become functions. -/
def ofDefns (p : Mil.Program) (ids : List DefnId) : List DefnId :=
  let next := fun id => if id ∈ ids then jumpsOf p id else []
  let edges := (ids.flatMap next).length
  close next (2 * edges + 1) (ids.length + 1) (ids.flatMap (required p)).eraseDups

end Mil.Rtl.Roots
