import Mil.Code.Basic

/-!
Equality of code up to the choice of temporaries. The comparison carries a one-to-one pairing of the
temporaries that were bound so far on both sides; temporaries bound on neither side must be the
same. A summary of code is a hash of sixty-four bits over the structure of a body, in which all
temporaries look alike, so that bodies that are equal up to the choice of temporaries have one
summary. The hash multiplies after each byte, starting from a fixed offset.
-/

namespace Mil

abbrev Pairing := List (Temp × Temp)

namespace Pairing

/-- Adds pairs, none of which may meet a temporary that is paired already. -/
def extend? (p : Pairing) : List Temp → List Temp → Option Pairing
  | [], [] => some p
  | x :: xs, y :: ys =>
    if p.any (fun q => q.1 = x ∨ q.2 = y) then none else extend? ((x, y) :: p) xs ys
  | _, _ => none

def ofParams? (xs ys : List Temp) : Option Pairing := extend? [] xs ys

/-- Are two operands the same under the pairing? -/
def atom (p : Pairing) : Atom → Atom → Bool
  | .temp x, .temp y =>
    match p.find? fun q => q.1 = x with
    | some q => q.2 = y
    | none => !p.any (fun q => q.2 = y) && x = y
  | .lit k, .lit l => k = l
  | .top d i _, .top e j _ => d = e && i = j
  | _, _ => false

/-- Are two lists of operands the same under the pairing? -/
def atoms (p : Pairing) : List Atom → List Atom → Bool
  | [], [] => true
  | a :: as, b :: bs => p.atom a b && atoms p as bs
  | _, _ => false

def call (p : Pairing) (c d : BlockCall) : Bool :=
  c.block = d.block && p.atoms c.args d.args

def tail (p : Pairing) : Tail → Tail → Bool
  | .ret as, .ret bs => p.atoms as bs
  | .call c, .call d => p.call c d
  | .prim f as _, .prim g bs _ => f == g && p.atoms as bs
  | .alloc k as _, .alloc l bs _ => k = l && p.atoms as bs
  | .data k as _, .data l bs _ => k == l && p.atoms as bs
  | .enter f as, .enter g bs => p.atom f g && p.atoms as bs
  | .sel k i a _, .sel l j b _ => k == l && i = j && p.atom a b
  | _, _ => false

/-- Are two lists of alternatives the same under the pairing? -/
def alts (p : Pairing) : List (Cfun × BlockCall) → List (Cfun × BlockCall) → Bool
  | [], [] => true
  | (k, c) :: as, (l, d) :: bs => k == l && p.call c d && alts p as bs
  | _, _ => false

/-- Are two defaults the same under the pairing? -/
def default (p : Pairing) : Option BlockCall → Option BlockCall → Bool
  | none, none => true
  | some c, some d => p.call c d
  | _, _ => false

/-- Are two bodies the same under the pairing, extended at each binding? -/
def code (p : Pairing) : Code → Code → Bool
  | .bind vs t next, .bind ws u next' =>
    p.tail t u &&
      match p.extend? vs ws with
      | some p => code p next next'
      | none => false
  | .done t, .done u => p.tail t u
  | .branch a c d, .branch b c' d' => p.atom a b && p.call c c' && p.call d d'
  | .case a as d, .case b bs d' => p.atom a b && p.alts as bs && p.default d d'
  | _, _ => false

end Pairing

/-! ### Summaries -/

abbrev Summary := UInt64

namespace Summary

def start : Summary := 0xcbf29ce484222325

def byte (h : Summary) (b : UInt8) : Summary := (h ^^^ b.toUInt64) * 0x100000001b3

/-- Adds the eight bytes of a number, the least significant first. -/
def int (h : Summary) (n : Int) : Summary :=
  let bits := (Int64.ofInt n).toUInt64
  (List.range 8).foldl (fun h i => h.byte (bits >>> UInt64.ofNat (8 * i)).toUInt8) h

/-- Adds the bytes of a text and a zero. -/
def str (h : Summary) (s : String) : Summary :=
  (s.toUTF8.toList.foldl byte h).byte 0

/-- Adds an operand; temporaries look alike. -/
def atom (h : Summary) : Atom → Summary
  | .temp _ => h.str "t"
  | .lit (.word w) => (h.str "w").int w.toInt
  | .lit (.flag b) => (h.str "f").int (if b then 1 else 0)
  | .top d i _ => ((h.str "r").int d).int i

/-- Adds the number of operands and each of them. -/
def atoms (h : Summary) (as : List Atom) : Summary := as.foldl atom (h.int as.length)

def operation (h : Summary) : Tail → Summary
  | .ret _ => h.str "return"
  | .call c => (h.str "call").int c.block
  | .prim p _ _ => ((h.str "prim").str p.name).int p.index
  | .alloc k _ _ => (h.str "clos").int k
  | .data k _ _ => (h.str "data").str k.name
  | .enter _ _ => h.str "enter"
  | .sel k field _ _ => ((h.str "sel").str k.name).int field

def tail (h : Summary) (t : Tail) : Summary := (h.operation t).atoms t.atoms

def code (h : Summary) : Code → Summary
  | .bind vars t next => code (((h.str "bind").int vars.length).tail t) next
  | .done t => (h.str "done").tail t
  | .branch cond c d => (((h.str "if").atoms [cond]).tail (.call c)).tail (.call d)
  | .case scrut alts default =>
    let h := alts.foldl (fun h (k, c) => (h.str k.name).tail (.call c))
      ((h.str "case").atoms [scrut])
    match default with
    | some c => (h.str "default").tail (.call c)
    | none => h

def ofBody (c : Option Code) : Summary := (c.map start.code).getD start

/-- The summary of a tail that may be missing, and then counts as one without operands. -/
def ofTail (t : Option Tail) : Summary := (t.map start.tail).getD (start.int 0)

end Summary

end Mil
