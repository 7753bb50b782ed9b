import Mil.Code.Alpha
import Mil.Optimize.Pass

/-!
Merging of duplicates. Blocks and closures whose code is equal up to the choice of temporaries are
merged, and every reference goes to the one that is kept, the first of them. Candidates are found by
a summary of their code, in a table of buckets. Entrypoints are kept, but others may be merged into
them; a definition is merged only into one of the same declared type.
-/

namespace Mil

/-- Do two definitions have the same code, up to the choice of temporaries? -/
def DefnBody.sameCode : DefnBody → DefnBody → Bool
  | .block a, .block b =>
    match Pairing.ofParams? a.params b.params, a.body, b.body with
    | some p, some c, some d => p.code c d
    | _, _, _ => false
  | .closure a, .closure b =>
    match Pairing.ofParams? (a.params ++ a.args) (b.params ++ b.args), a.tail, b.tail with
    | some p, some t, some u => p.tail t u
    | _, _, _ => false
  | _, _ => false

/-- May a definition be merged into another, by their declared types? -/
def DefnBody.fitsType (s : Store) : DefnBody → DefnBody → Bool
  | .block kept, .block b =>
    match kept.declared, b.declared with
    | none, _ => true
    | some _, none => false
    | some t, some u => t.alphaEquiv s u
  | .closure kept, .closure k =>
    match kept.declared, k.declared with
    | none, _ => true
    | some _, none => false
    | some t, some u => t.alphaEquiv s u
  | _, _ => false

namespace Optimize

/-- What definitions with the same code have in common: the summary of the code and the numbers of
parameters and arguments. -/
structure Fingerprint where
  sum : Summary
  params : Nat
  args : Nat
deriving DecidableEq

def Fingerprint.of? : DefnBody → Option Fingerprint
  | .block b =>
    if b.failed then none
    else some ⟨.ofBody b.body, b.params.length, 0⟩
  | .closure k =>
    if k.failed then none
    else some ⟨.ofTail k.tail, k.params.length, k.args.length⟩
  | _ => none

/-- The definitions seen so far that others may be merged into. A definition is in the bucket that
its summary selects. -/
structure MergeTable where
  buckets : Array (List (Fingerprint × DefnId))

namespace MergeTable

/-- A table with the given number of buckets, at least one. -/
def new (size : Int) : MergeTable := ⟨Array.replicate (max size 1).toNat []⟩

def index (t : MergeTable) (f : Fingerprint) : Nat := f.sum.toNat % t.buckets.size

def candidates (t : MergeTable) (f : Fingerprint) : List DefnId :=
  ((t.buckets[t.index f]?).getD []).filterMap fun (g, id) => if g = f then some id else none

def insert (t : MergeTable) (f : Fingerprint) (id : DefnId) : MergeTable :=
  ⟨t.buckets.modify (t.index f) (· ++ [(f, id)])⟩

end MergeTable

/-- What becomes of a definition: it is merged into another, it stays outside the table because
another one with the same code is there, or it enters the table. -/
inductive Verdict
  | merge (into : DefnId)
  | keepOut
  | enter

def verdict (p : Program) (d : Defn) : List DefnId → Verdict
  | [] => .enter
  | id :: rest =>
    match p.defns[id]? with
    | none => verdict p d rest
    | some other =>
      if !other.body.sameCode d.body then verdict p d rest
      else if d.entry then .keepOut
      else if other.body.fitsType p.store d.body then .merge id
      else verdict p d rest

/-- Looks at one definition; a merge is recorded in the program. -/
def mergeOne (t : MergeTable) (id : DefnId) : PassM MergeTable := do
  let p := (← get).program
  let d ← PassM.definition id
  match Fingerprint.of? d.body with
  | none => return t
  | some f =>
    match verdict p d (t.candidates f) with
    | .merge kept =>
      PassM.changed
      PassM.onProgram fun p => (t, p.modify id fun d => { d with replacedBy := some kept })
    | .keepOut => return t
    | .enter => return t.insert f id

end Optimize

def Atom.mapDefns (f : DefnId → DefnId) : Atom → Atom
  | .top d i s => .top (f d) i s
  | a => a

def BlockCall.mapDefns (f : DefnId → DefnId) (c : BlockCall) : BlockCall :=
  { c with block := f c.block, args := c.args.map (·.mapDefns f) }

def Tail.mapDefns (f : DefnId → DefnId) (t : Tail) : Tail :=
  match t.mapAtoms (·.mapDefns f) with
  | .call c => .call { c with block := f c.block }
  | .alloc k args inst => .alloc (f k) args inst
  | t => t

def Code.mapDefns (f : DefnId → DefnId) : Code → Code
  | .bind vars t next => .bind vars (t.mapDefns f) (next.mapDefns f)
  | .done t => .done (t.mapDefns f)
  | .branch cond c d => .branch (cond.mapDefns f) (c.mapDefns f) (d.mapDefns f)
  | .case scrut alts default =>
    .case (scrut.mapDefns f) (alts.map fun (k, c) => (k, c.mapDefns f)) (default.map (·.mapDefns f))

def DefnBody.mapDefns (f : DefnId → DefnId) : DefnBody → DefnBody
  | .block b => .block { b with body := b.body.map (·.mapDefns f) }
  | .closure k =>
    .closure { k with
      tail := k.tail.map (·.mapDefns f)
      derived := k.derived.map fun d => { d with closure := f d.closure } }
  | .top t => .top { t with tail := t.tail.map (·.mapDefns f) }
  | .external e => .external { e with impl := e.impl.map f }

/-- Lets every reference of a program follow replacements. -/
def Program.redirect (p : Program) : Program :=
  { p with defns := p.defns.map fun d => { d with body := d.body.mapDefns p.resolve } }

/-- Merges the duplicates among the definitions that can be reached, with a table of the given size;
whether there were any. -/
def Optimize.mergeDuplicates (size : Int) (p : Program) : Except Defect (Bool × Program) := do
  let merging := p.reachable.foldlM Optimize.mergeOne (Optimize.MergeTable.new size)
  let (merged, p) ← PassM.run (discard merging) p
  return (merged, if merged then p.redirect else p)

end Mil
