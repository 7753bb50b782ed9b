import Mil.Text.Category
import Mil.Text.Integer
import Mil.Text.Quoted
import Mil.Ty.Env

/-!
The written form of types. A text is cut into lexemes, and the lexemes are read by recursive
descent: a type is an application, or a function from an application to a type; an application is an
atom followed by atoms; an atom is a name, a natural, a list in brackets or a type in parentheses.
Names that start in lower case are variables, numbered in the order in which they appear. A variable
stands for a value type until its place says otherwise: beside an arrow it is a tuple, and after
`Bit` or `Ix` a natural.
-/

namespace Mil

/-- Why a text is not a type. -/
inductive TypeSyntaxError
  | unexpectedChar (c : Char)
  | expected (lexeme found : String)
  | trailing (lexeme : String)
  | ended
  | badNatural (lexeme : String)
  | unknownTycon (name : String)
  | listSeparator (close : String)
  | unknownVar (name : String)
  | unknownArgVar (name : String)

def TypeSyntaxError.message : TypeSyntaxError → String
  | .unexpectedChar c => "unexpected character " ++ Text.quoteChar c ++ " in type"
  | .expected lexeme found =>
    "expected " ++ Text.quote lexeme ++ " in type, found " ++ Text.quote found
  | .trailing lexeme => "unexpected " ++ Text.quote lexeme ++ " at end of type"
  | .ended => "unexpected end of type"
  | .badNatural lexeme => "bad natural " ++ Text.quote lexeme
  | .unknownTycon name => "unknown type constructor " ++ name
  | .listSeparator close => "expected , or " ++ close ++ " in type list"
  | .unknownVar name => "unknown type variable " ++ name
  | .unknownArgVar name => "type argument mentions unknown variable " ++ name

namespace Ty.Reader

def isNameChar (c : Char) : Bool :=
  Text.isLetter c || Text.isDigit c || c = '_'

def isBracket (c : Char) : Bool :=
  c ∈ ['[', ']', '\x7b', '\x7d', '(', ')', ',']

/-- Puts the lexeme whose characters were collected, last one first, before others. -/
def flush (word : List Char) (rest : List String) : List String :=
  if word.isEmpty then rest else String.ofList word.reverse :: rest

/-- Cuts a text into lexemes; `word` holds the characters of the name that is being read, last one
first. -/
def lexFrom : List Char → List Char → Except TypeSyntaxError (List String)
  | word, [] => .ok (flush word [])
  | word, '-' :: '>' :: '>' :: cs => (lexFrom [] cs).map fun rest => flush word ("->>" :: rest)
  | word, '>' :: '>' :: '=' :: cs => (lexFrom [] cs).map fun rest => flush word (">>=" :: rest)
  | word, c :: cs =>
    if Text.isBlank c then (lexFrom [] cs).map (flush word)
    else if isBracket c then (lexFrom [] cs).map fun rest => flush word (String.singleton c :: rest)
    else if isNameChar c then lexFrom (c :: word) cs
    else .error (.unexpectedChar c)

def lex (text : String) : Except TypeSyntaxError (List String) :=
  lexFrom [] text.toList

/-- The state of a reader: the lexemes that are left and the variables met so far, with their kinds.
The first `fixed` variables were given in advance and keep their kinds. -/
structure State where
  lexemes : List String
  names : List String
  kinds : List Kind
  fixed : Nat

/-- A reader with variables given in advance. -/
def State.start (text : String) (params : List String) : Except TypeSyntaxError State :=
  (lex text).map fun lexemes =>
    ⟨lexemes, params, List.replicate params.length .star, params.length⟩

abbrev Read := StateT State (Except TypeSyntaxError)

/-- The next lexeme, which stays; the empty text at the end. -/
def peek : Read String := return ((← get).lexemes.head?).getD ""

/-- Takes the next lexeme; the empty text at the end. -/
def next : Read String := do
  let s ← get
  set { s with lexemes := s.lexemes.tail }
  return (s.lexemes.head?).getD ""

def expect (lexeme : String) : Read Unit := do
  let found ← next
  if found ≠ lexeme then throw (.expected lexeme found)

def done : Read Unit := do
  match (← get).lexemes with
  | [] => return
  | lexeme :: _ => throw (.trailing lexeme)

/-- The variable of a name, which is new or was met before. -/
def varNamed (name : String) : Read Ty := do
  let s ← get
  if name ∈ s.names then return .gen (s.names.idxOf name)
  set { s with names := s.names ++ [name], kinds := s.kinds ++ [Kind.star] }
  return .gen s.names.length

/-- Gives a kind to a variable that was not given in advance. -/
def setKind (t : Ty) (k : Kind) : Read Unit :=
  modify fun s =>
    match t with
    | .gen n => if s.fixed ≤ n then { s with kinds := s.kinds.set n k } else s
    | _ => s

def startsAtom (lexeme : String) : Bool :=
  lexeme ∉ ["", "]", ")", "\x7b", "\x7d", ",", "->>", ">>="]

def natural? (lexeme : String) : Option Nat :=
  Text.readDecimal? lexeme.toList 0

/-- The type that a name or a number stands for. -/
def simple (env : Env) (lexeme : String) : Read Ty := do
  match lexeme.toList with
  | [] => throw .ended
  | c :: _ =>
    if Text.isDigit c then
      match natural? lexeme with
      | some n => return .nat n
      | none => throw (.badNatural lexeme)
    else if Text.isLower c then varNamed lexeme
    else
      match env.tycon? lexeme with
      | some c => return .con c
      | none => throw (.unknownTycon lexeme)

def takesNat : Ty → Bool
  | .con .bit => true
  | .con .ix => true
  | _ => false

mutual

def type (env : Env) : Nat → Read Ty
  | 0 => throw .ended
  | fuel + 1 => do
    let t ← app env fuel
    if (← peek) ≠ "->>" then return t
    let _ ← next
    let rng ← type env fuel
    setKind t .tuple
    setKind rng .tuple
    return func t rng

def app (env : Env) : Nat → Read Ty
  | 0 => throw .ended
  | fuel + 1 => do
    let head ← atom env fuel
    appArgs env fuel head

def appArgs (env : Env) : Nat → Ty → Read Ty
  | 0, _ => throw .ended
  | fuel + 1, head => do
    if startsAtom (← peek) then
      let arg ← atom env fuel
      if takesNat head then setKind arg .nat
      appArgs env fuel (.ap head arg)
    else return head

def atom (env : Env) : Nat → Read Ty
  | 0 => throw .ended
  | fuel + 1 => do
    match ← next with
    | "[" => return .tuple (← list env fuel "]")
    | "(" =>
      let t ← type env fuel
      expect ")"
      return t
    | lexeme => simple env lexeme

/-- Reads a list of types up to the closing bracket. -/
def list (env : Env) : Nat → String → Read (List Ty)
  | 0, _ => throw .ended
  | fuel + 1, close => do
    if (← peek) = close then
      let _ ← next
      return []
    items env fuel close

/-- Reads one or more types, separated by commas, up to the closing bracket. -/
def items (env : Env) : Nat → String → Read (List Ty)
  | 0, _ => throw .ended
  | fuel + 1, close => do
    let t ← type env fuel
    let separator ← next
    if separator = "," then return t :: (← items env fuel close)
    else if separator = close then return [t]
    else throw (.listSeparator close)

end

/-- More than the depth of the recursion on the lexemes that are left: no reader calls more than
four others before a lexeme is taken. -/
def fuel : Read Nat := return 5 * (← get).lexemes.length + 8

def wholeType (env : Env) : Read Ty := do
  let t ← type env (← fuel)
  done
  return t

def run {α : Type} (text : String) (params : List String) (r : Read α) :
    Except TypeSyntaxError (α × State) :=
  (State.start text params).bind r.run

end Ty.Reader

open Ty.Reader

/-- Reads a type; the names of its variables are given beside it. -/
def Ty.read (env : Env) (text : String) : Except TypeSyntaxError (Ty × List String) :=
  (run text [] (wholeType env)).map fun (t, s) => (t, s.names)

def Scheme.read (env : Env) (text : String) : Except TypeSyntaxError Scheme :=
  (run text [] (wholeType env)).map fun (t, s) => ⟨s.kinds, t⟩

/-- Reads a domain and a range with `>>=` between them. -/
def BlockType.read (env : Env) (text : String) : Except TypeSyntaxError BlockType :=
  let reader : Read (Ty × Ty) := do
    let dom ← app env (← fuel)
    expect ">>="
    let rng ← app env (← fuel)
    done
    setKind dom .tuple
    setKind rng .tuple
    return (dom, rng)
  (run text [] reader).map fun ((dom, rng), s) => ⟨s.kinds, dom, rng⟩

/-- Reads stored fields in braces and a result. -/
def AllocType.read (env : Env) (text : String) : Except TypeSyntaxError AllocType :=
  let reader : Read (List Ty × Ty) := do
    expect "\x7b"
    let stored ← list env (← fuel) "\x7d"
    let result ← wholeType env
    return (stored, result)
  (run text [] reader).map fun ((stored, result), s) => ⟨s.kinds, stored, result⟩

/-- Reads the type of a constructor field, whose variables are the parameters of the data type. -/
def Ty.readField (env : Env) (text : String) (params : List String) :
    Except TypeSyntaxError Ty := do
  let (t, s) ← run text params (wholeType env)
  match s.names[params.length]? with
  | some name => throw (.unknownVar name)
  | none => return t

def Ty.Reader.argTypes (env : Env) : List String → Read (List Ty)
  | [] => return []
  | text :: texts => do
    let lexemes ← lex text
    modify fun s => { s with lexemes }
    let t ← wholeType env
    return t :: (← argTypes env texts)

/-- Reads the type of an external and its type arguments, which may mention only variables of the
type. -/
def Scheme.readExternal (env : Env) (text : String) (args : List String) :
    Except TypeSyntaxError (Scheme × List Ty) := do
  let reader : Read (Ty × Nat × List Ty) := do
    let t ← wholeType env
    let vars := (← get).names.length
    return (t, vars, ← argTypes env args)
  let ((t, vars, types), s) ← run text [] reader
  match s.names[vars]? with
  | some name => throw (.unknownArgVar name)
  | none => return (⟨s.kinds, t⟩, types)

end Mil
