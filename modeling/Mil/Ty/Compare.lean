import Mil.Ty.Store

/-!
Comparison of types: equality, one-way matching of a pattern with quantified variables, and equality
up to renaming. All are stated on types without bound variables; the store's versions read their
arguments through the bindings first.
-/

namespace Mil

/-- What the quantified variables of a pattern have been matched with so far. -/
abbrev Slots := List (Option Ty)

namespace Ty

mutual

/-- Matches a pattern: a quantified variable takes the type it meets first, and must meet an equal
one afterwards. Slots that were filled before a mismatch stay filled. -/
def matchInto : Ty → Ty → Slots → Bool × Slots
  | .gen n, t, slots =>
    match slots[n]? with
    | none => (false, slots)
    | some none => (true, slots.set n (some t))
    | some (some u) => (u == t, slots)
  | .ap f a, .ap g b, slots =>
    match matchInto f g slots with
    | (true, slots) => matchInto a b slots
    | r => r
  | .tuple ps, .tuple ts, slots =>
    if ps.length ≠ ts.length then (false, slots) else matchList ps ts slots
  | p, t, slots => (p == t, slots)

def matchList : List Ty → List Ty → Slots → Bool × Slots
  | p :: ps, t :: ts, slots =>
    match matchInto p t slots with
    | (true, slots) => matchList ps ts slots
    | r => r
  | _, _, slots => (true, slots)

end

end Ty

/-- A one-to-one renaming of quantified and of unbound variables, as far as it is known. -/
structure Renaming where
  gens : List (Nat × Nat)
  vars : List (Nat × Nat)

namespace Renaming

def empty : Renaming := ⟨[], []⟩

/-- Adds that `a` is renamed to `b`, unless one of them is already paired with another. -/
def extend? (pairs : List (Nat × Nat)) (a b : Nat) : Option (List (Nat × Nat)) :=
  match pairs.lookup a with
  | some c => if c = b then some pairs else none
  | none => if pairs.any (fun p => p.2 = b) then none else some ((a, b) :: pairs)

end Renaming

namespace Ty

mutual

def rename? : Ty → Ty → Renaming → Option Renaming
  | .var a, .var b, m => (Renaming.extend? m.vars a b).map fun vars => { m with vars }
  | .gen a, .gen b, m => (Renaming.extend? m.gens a b).map fun gens => { m with gens }
  | .con c, .con d, m => if c = d then some m else none
  | .ap f a, .ap g b, m => (rename? f g m).bind (rename? a b)
  | .nat a, .nat b, m => if a = b then some m else none
  | .tuple as, .tuple bs, m => renameList? as bs m
  | _, _, _ => none

def renameList? : List Ty → List Ty → Renaming → Option Renaming
  | [], [], m => some m
  | a :: as, b :: bs, m => (rename? a b m).bind (renameList? as bs)
  | _, _, _ => none

end

end Ty

namespace Store

/-- Are two types equal, unbound variables being equal only to themselves? -/
def equal (s : Store) (a b : Ty) : Bool :=
  s.resolve a == s.resolve b

def matchInto (s : Store) (pattern inst : Ty) (slots : Slots) : Bool × Slots :=
  (s.resolve pattern).matchInto (s.resolve inst) slots

def alphaEquiv (s : Store) (a b : Ty) : Bool :=
  ((s.resolve a).rename? (s.resolve b) .empty).isSome

end Store

end Mil
