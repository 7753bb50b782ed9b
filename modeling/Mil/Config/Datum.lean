import Mil.Yaml.Decode

/-!
Values in files of options: what options can be made of, whatever the format of the file. Fractions,
dates and the like, which no option takes, are not told apart.
-/

namespace Mil.Config

inductive Datum
  | null
  | flag (b : Bool)
  | integer (n : Int)
  | text (s : String)
  | list (items : List Datum)
  | table (entries : List (String × Datum))
  | other

instance : Inhabited Datum := ⟨.null⟩

/-- Is a plain scalar written as a point and digits, or as one of the words for what is no
number? -/
def isFraction (text : String) : Bool :=
  (Yaml.Node.readFraction? text).isSome
    || text ∈ [".inf", ".Inf", ".INF", "+.inf", "+.Inf", "+.INF", "-.inf", "-.Inf", "-.INF", ".nan",
      ".NaN", ".NAN"]

/-- The value of a plain scalar that starts like a number: an integer of sixty-four bits in any
base, with underscores that do not count, or a fraction; else a text. -/
def Datum.ofNumeral (text : String) : Datum :=
  let digits := String.ofList (text.toList.filter fun c => c ≠ '_')
  match Text.readInteger? digits with
  | some n => if Text.fitsInt64 n then .integer n else .other
  | none => if isFraction digits then .other else .text text

def Datum.ofPlain (text : String) : Datum :=
  if text ∈ ["", "~", "null", "Null", "NULL"] then .null
  else if text ∈ ["true", "True", "TRUE"] then .flag true
  else if text ∈ ["false", "False", "FALSE"] then .flag false
  else
    match text.toList with
    | '.' :: _ => if isFraction text then .other else .text text
    | _ => if Yaml.Node.startsNumber text then .ofNumeral text else .text text

mutual

/-- The value of a node; none if a key is given twice or is no scalar. -/
def Datum.ofNode? : Yaml.Node → Option Datum
  | .scalar s plain _ => some (if plain then .ofPlain s else .text s)
  | .list items _ => (Datum.ofNodes? items).map .list
  | .map entries _ =>
    if Yaml.Node.hasDuplicate (entries.map Prod.fst) then none
    else (Datum.ofEntries? entries).map .table

def Datum.ofNodes? : List Yaml.Node → Option (List Datum)
  | [] => some []
  | n :: ns => do
    let d ← Datum.ofNode? n
    let ds ← Datum.ofNodes? ns
    return d :: ds

def Datum.ofEntries? : List (Yaml.Node × Yaml.Node) → Option (List (String × Datum))
  | [] => some []
  | (.scalar key _ _, n) :: rest => do
    let d ← Datum.ofNode? n
    let ds ← Datum.ofEntries? rest
    return (key, d) :: ds
  | _ => none

end

/-- Reads a file of options in YAML. A file that says nothing is an empty table. -/
def Datum.ofYaml? (text : String) : Option Datum :=
  match Yaml.Node.parse text with
  | .error _ => none
  | .ok none => some (.table [])
  | .ok (some n) =>
    if n.isNull then some (.table [])
    else
      match Datum.ofNode? n with
      | some (.table entries) => some (.table entries)
      | _ => none

end Mil.Config
