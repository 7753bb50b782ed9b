/-!
What a compilation says about its input, and about itself. A failure is a message at a source position,
of one of a few kinds. A log keeps failures in the order in which they were reported, so that checking can
go on past the first one, and sums them up at the end.

A defect is a broken invariant of the compiler. It is never the fault of a well-formed input at the stage
where it arises; it stops the compilation at once and is not added to the failure log.
-/

namespace Mil

/-! ### Failures -/

/-- A place in an input. A zero line or column is one that is not known. -/
structure Position where
  file : String
  line : Int
  col : Int
deriving DecidableEq

namespace Position

def unknown : Position := ⟨"", 0, 0⟩

def builtin : Position := ⟨"<builtin>", 0, 0⟩

def ofFile (file : String) : Position := ⟨file, 0, 0⟩

/-- `file:line:col`, leaving out from the first unknown part on. -/
def render (p : Position) : String :=
  if p.file = "" ∧ p.line = 0 then "<unknown>"
  else if p.line = 0 then p.file
  else if p.col = 0 then p.file ++ ":" ++ toString p.line
  else p.file ++ ":" ++ toString p.line ++ ":" ++ toString p.col

end Position

inductive FailureKind
  | type
  | structural
  | runtime
  | load
  | other
deriving DecidableEq

def FailureKind.name : FailureKind → String
  | .type => "type error"
  | .structural => "structural error"
  | .runtime => "runtime error"
  | .load => "load error"
  | .other => "error"

/-- A failure that the user of the compiler can mend. -/
structure Failure where
  pos : Position
  kind : FailureKind
  msg : String
deriving DecidableEq

/-- One line for a failure: place, kind and message. -/
def Failure.render (f : Failure) : String :=
  f.pos.render ++ ": " ++ f.kind.name ++ ": " ++ f.msg

/-- The failures reported so far, oldest first. -/
structure FailureLog where
  entries : List Failure

namespace FailureLog

def empty : FailureLog := ⟨[]⟩

def report (log : FailureLog) (f : Failure) : FailureLog :=
  ⟨log.entries ++ [f]⟩

/-- The failure that stands for a message with neither place nor kind. -/
def plain (msg : String) : Failure :=
  ⟨.unknown, .structural, msg⟩

/-- The number of failures and then each of them on a line of its own; nothing for an empty log. -/
def summary? (log : FailureLog) : Option String :=
  match log.entries with
  | [] => none
  | fs =>
    some ("compilation failed: " ++ toString fs.length ++ " error(s)\n"
      ++ "\n".intercalate (fs.map Failure.render))

end FailureLog

/-! ### Defects -/

/-- The invariants whose violation is noticed, with what is needed to name the culprit. Types are
given by their text. -/
inductive Defect
  | unsupportedWordSize (size : Int)
  | notMonomorphic (type : String)
  | malformedFunctionType (type : String)
  | malformedType (type : String)
  | noNaturalWidth (type : String)
  | notSingle (type : String) (words : Nat)
  | atomNotSingle (atom : String) (words : Nat)
  | handleOutOfRange (handle : Int)
  | notBlock (handle : Nat)
  | notClosure (handle : Nat)
  | untypedBlock (name : String)
  | untypedClosure (name : String)
  | untypedTop (name : String)
  | instanceMismatch (inst type name : String)
  | genericCount (generics types : Nat)
  | notTopValue (name : String)
  | notSpecializable (name : String)
  | callWithoutInstance
  | allocationWithoutInstance
  | tempOutOfScope (temp : String)
  | tempWithoutRep (temp : String)
  | copiedNoBody
  | copiedNoTail
  | missingBody
  | missingTail
  | unknownRep (name : String)
  | selectionWidth (words temps : Nat)
  | noWideAccess (size : Int)
  | primResults (name : String)
  | shapeLength (shape : Nat) (closure : String) (stored : Nat)
  | closureNotFunction (name : String)
  | bindingCount (vars values : Nat)
  | unboundTemp (temp : String)
  | missingTopValue (index : Nat) (name : String) (size : Nat)
  | notTopLevel (name : String)
  | noChunk (bytes : Int)
  | tempUndefined (temp : String)
  | jumpArity (name : String) (args params : Nat)
  | widerThanWord (name : String)
  | noInstruction (name : String)
  | missingNode (function : String) (node : Int)
  | tailResultMismatch (caller callee : String) (found expected : Int)

def Defect.describe : Defect → String
  | .unsupportedWordSize n => "unsupported word size " ++ toString n
  | .notMonomorphic t => "cannot represent non-monomorphic type " ++ t
  | .malformedFunctionType t => "malformed function type " ++ t
  | .malformedType t => "malformed type " ++ t
  | .noNaturalWidth t => "type " ++ t ++ " has no natural width"
  | .notSingle t n => "type " ++ t ++ " is represented by " ++ toString n ++ " words"
  | .atomNotSingle a n => "atom " ++ a ++ " is represented by " ++ toString n ++ " words"
  | .handleOutOfRange i => "definition handle " ++ toString i ++ " out of range"
  | .notBlock i => "definition " ++ toString i ++ " is not a block"
  | .notClosure i => "definition " ++ toString i ++ " is not a closure"
  | .untypedBlock n => "block " ++ n ++ " referenced before it has a type"
  | .untypedClosure n => "closure " ++ n ++ " referenced before it has a type"
  | .untypedTop n => "top-level " ++ n ++ " referenced before it has a type"
  | .instanceMismatch i t n => "instance " ++ i ++ " does not match type " ++ t ++ " of " ++ n
  | .genericCount g t =>
    "specializing substitution: generic count mismatch: " ++ toString g ++ " generics, "
      ++ toString t ++ " types"
  | .notTopValue n => "reference to " ++ n ++ ", which is not a top-level value"
  | .notSpecializable n => "cannot specialize " ++ n
  | .callWithoutInstance => "call site without an instantiated type"
  | .allocationWithoutInstance => "allocation without an instantiated type"
  | .tempOutOfScope t => "temporary " ++ t ++ " is not in scope"
  | .tempWithoutRep t => "temporary " ++ t ++ " has no representation"
  | .copiedNoBody => "unknown code <nil>"
  | .copiedNoTail => "unknown tail <nil>"
  | .missingBody => "unexpected code <nil>"
  | .missingTail => "unexpected tail <nil>"
  | .unknownRep n => "reference to " ++ n ++ " before its representation is known"
  | .selectionWidth w t =>
    "selection of " ++ toString w ++ " words bound to " ++ toString t ++ " temporaries"
  | .noWideAccess n => "no decomposition of 64 bit memory access at word size " ++ toString n
  | .primResults n => "primitive " ++ n ++ " does not return one value"
  | .shapeLength s k n =>
    "shape of " ++ toString s ++ " arguments for closure " ++ k ++ " with " ++ toString n
      ++ " stored parameters"
  | .closureNotFunction n => "closure " ++ n ++ " does not have a function type"
  | .bindingCount vars vals =>
    "binding " ++ toString vars ++ " variables to " ++ toString vals ++ " values"
  | .unboundTemp t => "unbound temporary " ++ t
  | .missingTopValue i n k =>
    "reference to value " ++ toString i ++ " of " ++ n ++ ", which has " ++ toString k
  | .notTopLevel n => n ++ " is not a top-level definition"
  | .noChunk n => "no memory chunk of " ++ toString n ++ " bytes"
  | .tempUndefined t => "temporary " ++ t ++ " used before definition"
  | .jumpArity n a p =>
    "jump to " ++ n ++ " with " ++ toString a ++ " arguments, expected " ++ toString p
  | .widerThanWord n => n ++ " is wider than a word"
  | .noInstruction n => "no instruction for primitive " ++ n
  | .missingNode f n => f ++ ": jump to node " ++ toString n ++ ", which has no instruction"
  | .tailResultMismatch f g m n =>
    f ++ " tail calls " ++ g ++ ", which returns " ++ toString m ++ " words instead of "
      ++ toString n

def Defect.render (d : Defect) : String :=
  "internal error: " ++ d.describe

end Mil
