import Mil.Ty.Compare

/-!
Quantified types: schemes of values, block types with a domain and a range, and allocation types
with stored fields and a result. The quantified variables of each are given by the list of their
kinds.
-/

namespace Mil

/-- `forall a b. ` before a body, for as many variables as there are kinds. -/
def withQuantifier (kinds : List Kind) (body : String) : String :=
  if kinds.isEmpty then body
  else "forall " ++ " ".intercalate ((List.range kinds.length).map Ty.genName) ++ ". " ++ body

/-- The type of a value, quantified. -/
structure Scheme where
  kinds : List Kind
  type : Ty

namespace Scheme

def mono (t : Ty) : Scheme := ⟨[], t⟩

def isPolymorphic (c : Scheme) : Bool := !c.kinds.isEmpty

/-- The type with fresh variables for the quantified ones. -/
def instantiate (c : Scheme) (s : Store) : Ty × Store :=
  let (vars, s) := s.freshAll c.kinds
  ((s.resolve c.type).instantiate vars, s)

def generalize (s : Store) (t : Ty) (vars : List Nat) : Scheme :=
  ⟨s.kindsOf vars, (s.resolve t).generalize vars⟩

def alphaEquiv (s : Store) (a b : Scheme) : Bool :=
  a.kinds.length = b.kinds.length && s.alphaEquiv a.type b.type

def render (s : Store) (c : Scheme) : String :=
  withQuantifier c.kinds (s.text c.type)

end Scheme

/-- The type of a block or primitive, quantified: tuples of what goes in and what comes out. -/
structure BlockType where
  kinds : List Kind
  dom : Ty
  rng : Ty

namespace BlockType

def ofLists (dom rng : List Ty) : BlockType := ⟨[], .tuple dom, .tuple rng⟩

def isPolymorphic (b : BlockType) : Bool := !b.kinds.isEmpty

/-- Puts types in place of the quantified variables. -/
def instantiateWith (s : Store) (b : BlockType) (types : List Ty) : BlockType :=
  ⟨[], (s.resolve b.dom).instantiate types, (s.resolve b.rng).instantiate types⟩

/-- The block type with fresh variables for the quantified ones. -/
def instantiate (b : BlockType) (s : Store) : BlockType × Store :=
  let (vars, s) := s.freshAll b.kinds
  (b.instantiateWith s vars, s)

def generalize (s : Store) (b : BlockType) (vars : List Nat) : BlockType :=
  ⟨s.kindsOf vars, (s.resolve b.dom).generalize vars, (s.resolve b.rng).generalize vars⟩

/-- Adds the unbound variables of the domain and then of the range. -/
def addVars (s : Store) (b : BlockType) (acc : List Nat) : List Nat :=
  s.addVars b.rng (s.addVars b.dom acc)

def resolve (s : Store) (b : BlockType) : BlockType :=
  ⟨b.kinds, s.resolve b.dom, s.resolve b.rng⟩

/-- The block type with defaults for unbound variables, quantifying nothing. -/
def ground (s : Store) (b : BlockType) : BlockType :=
  ⟨[], s.ground b.dom, s.ground b.rng⟩

def unify (s : Store) (a b : BlockType) : Except UnifyError Unit × Store :=
  match s.unify a.dom b.dom with
  | (.ok (), s) => s.unify a.rng b.rng
  | r => r

/-- Equality up to one renaming of domain and range. -/
def alphaEquiv (s : Store) (a b : BlockType) : Bool :=
  a.kinds.length = b.kinds.length &&
    (((s.resolve a.dom).rename? (s.resolve b.dom) .empty).bind
      ((s.resolve a.rng).rename? (s.resolve b.rng))).isSome

def matchInto (s : Store) (pattern inst : BlockType) (slots : Slots) : Bool × Slots :=
  match s.matchInto pattern.dom inst.dom slots with
  | (true, slots) => s.matchInto pattern.rng inst.rng slots
  | r => r

/-- The text that stands for a block type in tables, without its quantifier. -/
def key (s : Store) (b : BlockType) : String :=
  s.text b.dom ++ " >>= " ++ s.text b.rng

def render (s : Store) (b : BlockType) : String :=
  withQuantifier b.kinds (b.key s)

def domTypes (s : Store) (b : BlockType) : List Ty := (s.resolve b.dom).elems?.getD []

def rngTypes (s : Store) (b : BlockType) : List Ty := (s.resolve b.rng).elems?.getD []

end BlockType

/-- The type of an allocation, quantified: the stored fields and the resulting value. -/
structure AllocType where
  kinds : List Kind
  stored : List Ty
  result : Ty

namespace AllocType

def isPolymorphic (a : AllocType) : Bool := !a.kinds.isEmpty

/-- Applies a function to every field and the result; nothing is quantified afterwards. -/
def mapTypes (f : Ty → Ty) (a : AllocType) : AllocType :=
  ⟨[], a.stored.map f, f a.result⟩

/-- Puts types in place of the quantified variables. -/
def instantiateWith (s : Store) (a : AllocType) (types : List Ty) : AllocType :=
  a.mapTypes fun t => (s.resolve t).instantiate types

/-- The allocation type with fresh variables for the quantified ones. -/
def instantiate (a : AllocType) (s : Store) : AllocType × Store :=
  let (vars, s) := s.freshAll a.kinds
  (a.instantiateWith s vars, s)

def generalize (s : Store) (a : AllocType) (vars : List Nat) : AllocType :=
  { a.mapTypes fun t => (s.resolve t).generalize vars with kinds := s.kindsOf vars }

/-- Adds the unbound variables of the fields and then of the result. -/
def addVars (s : Store) (a : AllocType) (acc : List Nat) : List Nat :=
  s.addVars a.result (a.stored.foldl (fun acc t => s.addVars t acc) acc)

def resolve (s : Store) (a : AllocType) : AllocType :=
  { a.mapTypes s.resolve with kinds := a.kinds }

/-- The allocation type with defaults for unbound variables, quantifying nothing. -/
def ground (s : Store) (a : AllocType) : AllocType := a.mapTypes s.ground

/-- Equality up to one renaming of all fields and the result. -/
def alphaEquiv (s : Store) (a b : AllocType) : Bool :=
  a.kinds.length = b.kinds.length &&
    ((Ty.renameList? (a.stored.map s.resolve) (b.stored.map s.resolve) .empty).bind
      ((s.resolve a.result).rename? (s.resolve b.result))).isSome

def matchInto (s : Store) (pattern inst : AllocType) (slots : Slots) : Bool × Slots :=
  if pattern.stored.length ≠ inst.stored.length then (false, slots)
  else
    match Ty.matchList (pattern.stored.map s.resolve) (inst.stored.map s.resolve) slots with
    | (true, slots) => s.matchInto pattern.result inst.result slots
    | r => r

/-- The text that stands for an allocation type in tables, without its quantifier. -/
def key (s : Store) (a : AllocType) : String :=
  "\x7b" ++ ", ".intercalate (a.stored.map s.text) ++ "\x7d " ++ s.text a.result

def render (s : Store) (a : AllocType) : String :=
  withQuantifier a.kinds (a.key s)

end AllocType

namespace Slots

/-- As many empty slots as there are quantified variables. -/
def ofKinds (kinds : List Kind) : Slots := kinds.map fun _ => none

/-- The slots with defaults where nothing was matched; missing slots count as empty. -/
def fill (kinds : List Kind) (slots : Slots) : List Ty :=
  kinds.zipIdx.map fun (k, i) => ((slots[i]?).join).getD (Ty.defaultOf k)

/-- Pairs the variables of a definition with the types they take in an instance; a variable that the
instance leaves open takes its default. The two lists must have one length. -/
def specialize? (s : Store) (vars : List Nat) (slots : Slots) : Option TySubst :=
  if vars.length ≠ slots.length then none
  else some ((vars.zip slots).map fun (v, slot) => (v, slot.getD (Ty.defaultOf (s.kindOf v))))

end Slots

end Mil
