/-!
Integer literals in the notation of programs: an optional sign, an optional base mark (`0x`, `0o`,
`0b`, or a bare leading zero for base eight), and digits. Underscores may stand between digits, or
between the base mark and the first digit.
-/

namespace Mil.Text

/-- The value of a digit or letter as a digit of a base up to thirty-six. -/
def digitValue? (c : Char) : Option Nat :=
  if '0' ≤ c ∧ c ≤ '9' then some (c.toNat - '0'.toNat)
  else if 'a' ≤ c ∧ c ≤ 'z' then some (c.toNat - 'a'.toNat + 10)
  else if 'A' ≤ c ∧ c ≤ 'Z' then some (c.toNat - 'A'.toNat + 10)
  else none

def readDigits? (base : Nat) : List Char → Nat → Option Nat
  | [], acc => some acc
  | c :: cs, acc =>
    if c = '_' then readDigits? base cs acc
    else match digitValue? c with
      | some d => if d < base then readDigits? base cs (acc * base + d) else none
      | none => none

def readDecimal? : List Char → Nat → Option Nat
  | [], acc => some acc
  | c :: cs, acc =>
    if '0' ≤ c ∧ c ≤ '9' then readDecimal? cs (acc * 10 + (c.toNat - '0'.toNat)) else none

/-- What was seen last when underscores are checked. -/
inductive Seen
  | start
  | digit
  | underscore
  | other
deriving DecidableEq

def underscoresBetween (hex : Bool) : Seen → List Char → Bool
  | seen, [] => seen ≠ .underscore
  | seen, c :: cs =>
    if ('0' ≤ c ∧ c ≤ '9') ∨ (hex ∧ (('a' ≤ c ∧ c ≤ 'f') ∨ ('A' ≤ c ∧ c ≤ 'F'))) then
      underscoresBetween hex .digit cs
    else if c = '_' then seen = .digit && underscoresBetween hex .underscore cs
    else seen ≠ .underscore && underscoresBetween hex .other cs

/-- The base and digits that an unsigned literal announces, and whether a base letter was given. -/
def splitBase : List Char → Nat × List Char × Bool
  | '0' :: b :: c :: cs =>
    match b.toLower with
    | 'b' => (2, c :: cs, true)
    | 'o' => (8, c :: cs, true)
    | 'x' => (16, c :: cs, true)
    | _ => (8, b :: c :: cs, false)
  | '0' :: cs => (8, cs, false)
  | cs => (10, cs, false)

def readNatural? (cs : List Char) : Option Nat :=
  if cs.isEmpty then none
  else
    let (base, digits, marked) := splitBase cs
    match readDigits? base digits 0 with
    | none => none
    | some n =>
      let before := if marked then Seen.digit else Seen.start
      let body := if marked then digits else cs
      if cs.contains '_' && !underscoresBetween (base = 16) before body then none else some n

def readInteger? (s : String) : Option Int :=
  match s.toList with
  | '-' :: cs => (readNatural? cs).map fun n => -(n : Int)
  | '+' :: cs => (readNatural? cs).map fun n => (n : Int)
  | cs => (readNatural? cs).map fun n => (n : Int)

/-- Does the number fit into a signed word of sixty-four bits? -/
def fitsInt64 (n : Int) : Bool :=
  -0x8000000000000000 ≤ n && n < 0x8000000000000000

/-- Reads a literal that fits into a signed word of sixty-four bits. -/
def readInt64? (s : String) : Option Int64 :=
  match readInteger? s with
  | some n => if fitsInt64 n then some (Int64.ofInt n) else none
  | none => none

end Mil.Text
