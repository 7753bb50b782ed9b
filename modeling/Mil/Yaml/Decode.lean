import Mil.Text.Integer
import Mil.Yaml.Node

/-!
Values out of nodes. A decoder knows which kind of value it wants. A text takes any scalar as it is
written; nothing, written as an empty or null plain scalar, leaves a text empty, drops an item out
of a list and makes an optional part absent. A record takes the keys it knows and passes over the
others.
-/

namespace Mil.Yaml

/-- Why a node does not hold the value that is wanted. -/
inductive DecodeError
  | wrongShape
  | duplicateKey
deriving DecidableEq

namespace Node

def isNull : Node → Bool
  | .scalar text plain _ => plain && text ∈ ["", "~", "null", "Null", "NULL"]
  | _ => false

def asString : Node → Except DecodeError String
  | .scalar text plain m => .ok (if (Node.scalar text plain m).isNull then "" else text)
  | _ => .error .wrongShape

/-- The items of a list, without those that say nothing; nothing for a node that says nothing. -/
def asList? {α : Type} (item : Node → Except DecodeError α) (n : Node) :
    Except DecodeError (Option (List α)) :=
  match n with
  | .list items _ => ((items.filter fun i => !i.isNull).mapM item).map some
  | n => if n.isNull then .ok none else .error .wrongShape

def asList {α : Type} (item : Node → Except DecodeError α) (n : Node) :
    Except DecodeError (List α) :=
  (n.asList? item).map fun items => items.getD []

def asOptional {α : Type} (part : Node → Except DecodeError α) (n : Node) :
    Except DecodeError (Option α) :=
  if n.isNull then .ok none else (part n).map some

/-- A truth value. Besides the words for truth itself, the words for agreement count. -/
def asBool : Node → Except DecodeError Bool
  | .scalar text plain m =>
    if (Node.scalar text plain m).isNull then .ok false
    else if plain && text ∈ ["true", "True", "TRUE"] then .ok true
    else if plain && text ∈ ["false", "False", "FALSE"] then .ok false
    else if text ∈ ["y", "Y", "yes", "Yes", "YES", "on", "On", "ON"] then .ok true
    else if text ∈ ["n", "N", "no", "No", "NO", "off", "Off", "OFF"] then .ok false
    else .error .wrongShape
  | _ => .error .wrongShape

/-- A decimal fraction: a sign, digits with a point among them, and an exponent of ten. -/
structure Decimal where
  negative : Bool
  digits : Nat
  exponent : Int

def takeDigits (cs : List Char) : List Char × List Char :=
  (cs.takeWhile Char.isDigit, cs.dropWhile Char.isDigit)

def readExponent? : List Char → Option Int
  | [] => some 0
  | e :: cs =>
    if e ≠ 'e' ∧ e ≠ 'E' then none
    else
      let (negative, cs) := match cs with
        | '-' :: cs => (true, cs)
        | '+' :: cs => (false, cs)
        | cs => (false, cs)
      if cs.isEmpty then none
      else (Text.readDecimal? cs 0).map fun n => if negative then -(n : Int) else n

def readFraction? (text : String) : Option Decimal := do
  let (negative, cs) := match text.toList with
    | '-' :: cs => (true, cs)
    | '+' :: cs => (false, cs)
    | cs => (false, cs)
  let (whole, cs) := takeDigits cs
  let (part, cs) := match cs with
    | '.' :: cs => takeDigits cs
    | cs => ([], cs)
  if whole.isEmpty && part.isEmpty then none
  let exponent ← readExponent? cs
  let digits ← Text.readDecimal? (whole ++ part) 0
  return ⟨negative, digits, exponent - part.length⟩

/-- The whole part of a decimal fraction; nothing beyond the range of numbers of double
precision. -/
def Decimal.whole? (d : Decimal) : Option Int :=
  let size : Option Nat :=
    if d.digits = 0 then some 0
    else if d.exponent > 310 then none
    else if d.exponent ≥ 0 then some (d.digits * Nat.pow 10 d.exponent.toNat)
    else if (-d.exponent).toNat > (toString d.digits).length then some 0
    else some (d.digits / Nat.pow 10 (-d.exponent).toNat)
  size.map fun n => if d.negative then -(n : Int) else n

/-- The number that a plain scalar stands for, cut to its whole part. Underscores are passed
over. -/
def number? (text : String) : Option Int :=
  let cs := text.toList.filter fun c => c ≠ '_'
  match Text.readInteger? (String.ofList cs) with
  | some n => some n
  | none =>
    ((readFraction? (String.ofList cs)).bind Decimal.whole?).map fun n =>
      if n < -0x8000000000000000 then -0x8000000000000000 else n

def startsNumber (text : String) : Bool :=
  match text.toList with
  | c :: _ => c.isDigit || c = '+' || c = '-' || c = '.'
  | [] => false

/-- A whole number that fits into sixty-four bits. -/
def asInt : Node → Except DecodeError Int
  | .scalar text plain m =>
    if (Node.scalar text plain m).isNull then .ok 0
    else
      match (if plain && startsNumber text then number? text else none) with
      | some n => if Text.fitsInt64 n then .ok n else .error .wrongShape
      | none => .error .wrongShape
  | _ => .error .wrongShape

/-- Do two keys of one mapping clash? -/
def sameKey : Node → Node → Bool
  | .scalar a _ _, .scalar b _ _ => a = b
  | .list _ _, .list _ _ => true
  | .map _ _, .map _ _ => true
  | _, _ => false

def hasDuplicate : List Node → Bool
  | [] => false
  | k :: ks => ks.any (sameKey k) || hasDuplicate ks

/-- The keys and values of a record; none for a node that says nothing. -/
def asRecord : Node → Except DecodeError (List (String × Node))
  | .map entries _ =>
    if hasDuplicate (entries.map Prod.fst) then .error .duplicateKey
    else
      (entries.filter fun (k, _) => !k.isNull).mapM fun (k, v) => k.asString.map fun name => (name, v)
  | n => if n.isNull then .ok [] else .error .wrongShape

def field {α : Type} (record : List (String × Node)) (name : String) (absent : α)
    (decode : Node → Except DecodeError α) : Except DecodeError α :=
  match record.lookup name with
  | some n => decode n
  | none => .ok absent

end Node

end Mil.Yaml
