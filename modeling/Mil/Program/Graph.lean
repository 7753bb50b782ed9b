import Mil.Program.Basic

/-!
The graph of references between definitions: what can be reached from the entrypoints, and the
strongly connected components in an order in which each comes after those it depends on. Two
definitions are in one component if each can be reached from the other. A depth-first search finds the
components by low links.
-/

namespace Mil

abbrev Successors := Nat → List Nat

namespace Successors

def spread (next : Successors) : Nat → List Nat → List Nat → List Nat
  | 0, seen, _ => seen
  | fuel + 1, seen, frontier =>
    match (frontier.filter fun v => v ∉ seen).eraseDups with
    | [] => seen
    | new => spread next fuel (seen ++ new) (new.flatMap next)

/-- All that can be reached from the roots, themselves included; `bound` is at least the number of
vertices. -/
def reach (next : Successors) (bound : Nat) (roots : List Nat) : List Nat :=
  spread next (bound + 1) [] roots

/-- The progress of a search for components. The index of a vertex is its position in the order in which
vertices are entered. The stack holds those that are in no component yet, the last one first. -/
structure Tarjan where
  order : List Nat
  stack : List Nat
  found : List (List Nat)

/-- The number of vertices that were entered before a vertex. -/
def Tarjan.index (s : Tarjan) (v : Nat) : Nat := s.order.idxOf v

def Tarjan.enter (s : Tarjan) (v : Nat) : Tarjan :=
  { s with order := s.order ++ [v], stack := v :: s.stack }

def popTo (v : Nat) : List Nat → List Nat × List Nat
  | [] => ([], [])
  | w :: stack =>
    if w = v then ([w], stack)
    else
      let (popped, rest) := popTo v stack
      (w :: popped, rest)

/-- Makes a component, in increasing order, of the stack down to a vertex. -/
def Tarjan.close (s : Tarjan) (v : Nat) : Tarjan :=
  let (popped, rest) := popTo v s.stack
  { s with stack := rest, found := s.found ++ [popped.mergeSort (· ≤ ·)] }

/-- Goes on to a successor, given how successors are visited, and updates the low link of the vertex that
it is a successor of. -/
def follow (visit : Tarjan → Nat → Tarjan × Nat) : Tarjan × Nat → Nat → Tarjan × Nat
  | (s, low), w =>
    if w ∉ s.order then
      let (s, low_w) := visit s w
      (s, min low low_w)
    else if w ∈ s.stack then (s, min low (s.index w))
    else (s, low)

/-- Visits a vertex that was not entered, at most `fuel` deep, and gives its low link: the least index on
the stack that was seen from it or from what was visited from there. A vertex from which nothing below
itself was seen is the last of its component to be left. -/
def visit (next : Successors) : Nat → Tarjan → Nat → Tarjan × Nat
  | 0, s, _ => (s, s.order.length)
  | fuel + 1, s, v =>
    let index := s.order.length
    let (s, low) := (next v).foldl (follow (visit next fuel)) (s.enter v, index)
    (if low = index then s.close v else s, low)

def start (next : Successors) (bound : Nat) (s : Tarjan) (v : Nat) : Tarjan :=
  if v ∈ s.order then s else (visit next (bound + 1) s v).1

def components (next : Successors) (bound : Nat) (vertices : List Nat) : List (List Nat) :=
  (vertices.foldl (start next bound) ⟨[], [], []⟩).found

end Successors

namespace Program

def dependencies (p : Program) (id : DefnId) : List DefnId :=
  ((p.defns[id]?).map fun d => d.body.dependencies).getD []

/-- The definitions that can be reached from the given ones, in increasing order. -/
def reachableFrom (p : Program) (roots : List DefnId) : List DefnId :=
  let seen := Successors.reach p.dependencies p.defns.size roots
  p.all.filter fun id => id ∈ seen

def reachable (p : Program) : List DefnId := p.reachableFrom p.entries

/-- The strongly connected components of some definitions, each after those it depends on. -/
def components (p : Program) (ids : List DefnId) : List (List DefnId) :=
  Successors.components (fun id => (p.dependencies id).filter fun d => d ∈ ids) p.defns.size ids

def isRecursive (p : Program) (component : List DefnId) : Bool :=
  match component with
  | [id] => id ∈ p.dependencies id
  | _ => true

end Program

end Mil
