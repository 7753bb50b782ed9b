import Mil.Rep.State

/-!
Externals that the compiler implements itself: bit vectors of literals, and complement and negation
of bit vectors of any width. An implementation is a top-level definition that holds the words of the
value, or a closure for a function. Externals with one reference, type arguments and type share one.
-/

namespace Mil.Rep

def natOf? (s : Store) (t : Ty) : Option Nat :=
  match s.resolve t with
  | .nat n => some n
  | _ => none

def widthOf? (s : Store) (t : Ty) : Option Nat :=
  (natOf? s t).filter fun n => n < 0x8000000000000000

/-- A top-level definition that holds a closure without stored values. -/
def addFunction (name : String) (fun_ : Ty) (k : Closure) : TransM DefnId := do
  let type : AllocType := ⟨[], [], fun_⟩
  let id ← addBuiltin (name ++ "_k") (.closure k)
  add (.newTop .builtin ⟨[.typed name fun_], some (.alloc id [] (some type)), [], false⟩)

def bitLength (n : Nat) : Nat := if n = 0 then 0 else Nat.log2 n + 1

/-- The words of a literal. An external that is a function takes arguments and ignores them. -/
def literal (d : Defn) (e : External) (v n : Nat) : TransM DefnId := do
  if bitLength v > n then
    throw (.failure ⟨d.pos, .structural,
      "literal " ++ toString v ++ " does not fit in Bit " ++ toString n⟩)
  let args := (splitWords (← get).table.size v n).map Atom.word
  let name := "bit" ++ toString v ++ "_" ++ toString n
  match ← repsOf e.declared.type with
  | [.ap (.ap (.con .func) dom) _] =>
    let type := Ty.func dom (.tuple (Ty.words args.length))
    let temps ← freshTemps (dom.elems?.getD [])
    addFunction name type (.typed [] temps (some (.ret args)) ⟨[], [], type⟩)
  | _ =>
    let lhs := (List.range args.length).map fun i => TopName.typed (name ++ "_" ++ toString i) .word
    add (.newTop .builtin ⟨lhs, some (.ret args), [], false⟩)

def notWords : List Temp → TransM (List Atom × List Binding)
  | [] => return ([], [])
  | x :: xs => do
    let (y, b) ← primBinding (.builtin .not) [.temp x]
    let (ys, bs) ← notWords xs
    return (.temp y :: ys, b :: bs)

/-- The carry into the next word of a negation: it is set when all words up to here are zero. -/
def nextCarry (carry : Option Temp) (x : Temp) : TransM (Temp × List Binding) := do
  let (z, b) ← primBinding (.builtin .eq) [.temp x, .word 0]
  match carry with
  | none => return (z, [b])
  | some c =>
    let (both, b') ← primBinding (.builtin .band) [.temp c, .temp z]
    return (both, [b, b'])

def negateWord (carry : Option Temp) (x : Temp) : TransM (Temp × List Binding) := do
  match carry with
  | none =>
    let (y, b) ← primBinding (.builtin .neg) [.temp x]
    return (y, [b])
  | some c =>
    let (w, b₁) ← primBinding (.builtin .flagToWord) [.temp c]
    let (m, b₂) ← primBinding (.builtin .not) [.temp x]
    let (y, b₃) ← primBinding (.builtin .add) [.temp m, .temp w]
    return (y, [b₁, b₂, b₃])

/-- Negates a number of several words, the least significant first. -/
def negateWords : Option Temp → List Temp → TransM (List Atom × List Binding)
  | _, [] => return ([], [])
  | carry, [x] => do
    let (y, bs) ← negateWord carry x
    return ([.temp y], bs)
  | carry, x :: xs => do
    let (y, bs) ← negateWord carry x
    let (c, cs) ← nextCarry carry x
    let (ys, rest) ← negateWords (some c) xs
    return (.temp y :: ys, bs ++ cs ++ rest)

def maskLast (mask : Option Word) (out : List Atom) : TransM (List Atom × List Binding) := do
  match mask, out.getLast? with
  | some m, some last =>
    let (y, b) ← primBinding (.builtin .and) [last, .word m]
    return (out.dropLast ++ [.temp y], [b])
  | _, _ => return (out, [])

/-- A function on bit vectors of a width: a block that computes the words, a closure that calls the
block, and a top-level definition that holds the closure. -/
def bitFunction (name : String) (n : Nat)
    (compute : List Temp → TransM (List Atom × List Binding)) : TransM DefnId := do
  let size := (← get).table.size
  let words := Ty.words (wordsFor size n).toNat
  let params ← freshTemps words
  let (out, bs) ← compute params
  let (out, masking) ← maskLast (highMask? size n) out
  let type := BlockType.ofLists words words
  let b ← addBuiltin (name ++ "_b")
    (.block (.typed params (some (sequence (bs ++ masking) (.ret out))) type))
  let args ← freshTemps words
  let fun_ := Ty.func (.tuple words) (.tuple words)
  addFunction name fun_
    (.typed [] args (some (.call ⟨b, args.map .temp, some type⟩)) ⟨[], [], fun_⟩)

def implement (d : Defn) (e : External) : TransM (Option DefnId) := do
  let s ← store
  match e.ref, e.types with
  | "primBitFromLiteral", v :: n :: _ =>
    match natOf? s v, widthOf? s n with
    | some v, some n => some <$> literal d e v n
    | _, _ => return none
  | "primBitNot", n :: _ =>
    match widthOf? s n with
    | some n => some <$> bitFunction ("primBitNot" ++ toString n) n notWords
    | none => return none
  | "primBitNegate", n :: _ =>
    match widthOf? s n with
    | some n => some <$> bitFunction ("primBitNegate" ++ toString n) n (negateWords none)
    | none => return none
  | _, _ => return none

def implKey (s : Store) (e : External) : String :=
  e.ref ++ String.join (e.types.map fun t => " " ++ s.text t) ++ " :: " ++ s.text e.declared.type

/-- The implementation of an external, made when it is first asked for. -/
def generate (d : Defn) (e : External) : TransM (Option DefnId) := do
  let key := implKey (← store) e
  match (← get).impls.lookup key with
  | some id => return some id
  | none =>
    let impl ← implement d e
    if let some id := impl then
      modify fun s => { s with impls := (key, id) :: s.impls }
    return impl

/-- An implementation must hold just the words that references to the external expect. -/
def checkImpl (d : Defn) (e : External) (impl : DefnId) (want : List Ty) : TransM Unit := do
  let p := (← get).program
  let fits := match (p.defns[impl]?).map Defn.body with
    | some (.top t) => t.lhs.length = want.length &&
        (t.lhs.zip want).all fun (l, w) => l.defining.any fun u => p.store.alphaEquiv u w
    | _ => false
  if !fits then
    throw (.failure ⟨d.pos, .structural, "implementation generated by " ++ e.ref
      ++ " does not match the type " ++ e.declared.render p.store ++ " of " ++ d.name⟩)

end Mil.Rep
