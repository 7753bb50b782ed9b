import Mil.Config.Datum

/-!
Files of options in TOML. A file is a sequence of lines: keys with values, headers that name the
table of the lines below them, and comments. A reader takes the text that is left and gives a value
and the text after it, or nothing.
-/

namespace Mil.Config.Toml

def skipBlanks (cs : List Char) : List Char := cs.dropWhile fun c => c = ' ' || c = '\t'

def skipComment : List Char → List Char
  | '#' :: cs => cs.dropWhile (· ≠ '\n')
  | cs => cs

/-- Drops blanks and an optional comment; the line must end there. -/
def endLine? (cs : List Char) : Option (List Char) :=
  match skipComment (skipBlanks cs) with
  | [] => some []
  | '\n' :: cs => some cs
  | '\r' :: '\n' :: cs => some cs
  | _ => none

/-- Drops blanks, line ends and comments, at most `fuel` of them. -/
def skipSpace : Nat → List Char → List Char
  | 0, cs => cs
  | fuel + 1, cs =>
    match cs with
    | ' ' :: rest | '\t' :: rest | '\n' :: rest | '\r' :: rest => skipSpace fuel rest
    | '#' :: rest => skipSpace fuel (rest.dropWhile (· ≠ '\n'))
    | cs => cs

def unicode? (digits : List Char) : Option Char := do
  let n ← Text.readDigits? 16 digits 0
  if digits.contains '_' then none
  else if n.isValidChar then some (Char.ofNat n) else none

def escape? : List Char → Option (Char × List Char)
  | 'b' :: cs => some ('\x08', cs)
  | 't' :: cs => some ('\t', cs)
  | 'n' :: cs => some ('\n', cs)
  | 'f' :: cs => some ('\x0c', cs)
  | 'r' :: cs => some ('\r', cs)
  | '\x22' :: cs => some ('\x22', cs)
  | '\\' :: cs => some ('\\', cs)
  | 'u' :: cs =>
    if cs.length < 4 then none else (unicode? (cs.take 4)).map fun c => (c, cs.drop 4)
  | 'U' :: cs =>
    if cs.length < 8 then none else (unicode? (cs.take 8)).map fun c => (c, cs.drop 8)
  | _ => none

def isControl (c : Char) : Bool := c.toNat < 0x20 && c ≠ '\t' || c.toNat = 0x7f

/-- Reads a text up to a closing quote, with escapes. -/
def basic? : Nat → List Char → Option (List Char × List Char)
  | 0, _ => none
  | fuel + 1, cs =>
    match cs with
    | [] => none
    | '\x22' :: rest => some ([], rest)
    | '\\' :: rest => do
      let (c, rest) ← escape? rest
      let (more, rest) ← basic? fuel rest
      return (c :: more, rest)
    | c :: rest =>
      if isControl c then none
      else do
        let (more, rest) ← basic? fuel rest
        return (c :: more, rest)

/-- Reads a text up to a closing apostrophe, without escapes. -/
def literal? : List Char → Option (List Char × List Char)
  | [] => none
  | '\x27' :: rest => some ([], rest)
  | c :: rest =>
    if isControl c then none else (literal? rest).map fun (more, rest) => (c :: more, rest)

def skipNewline : List Char → List Char
  | '\n' :: cs => cs
  | '\r' :: '\n' :: cs => cs
  | cs => cs

/-- Reads a text over several lines up to three closing quotes, with escapes. A backslash at the end
of a line joins it to the next text. -/
def longBasic? : Nat → List Char → Option (List Char × List Char)
  | 0, _ => none
  | fuel + 1, cs =>
    match cs with
    | [] => none
    | '\x22' :: '\x22' :: '\x22' :: rest => some ([], rest)
    | '\\' :: rest =>
      match skipBlanks rest with
      | '\n' :: more =>
        longBasic? fuel (more.dropWhile fun c => c = ' ' || c = '\t' || c = '\n' || c = '\r')
      | _ => do
        let (c, rest) ← escape? rest
        let (more, rest) ← longBasic? fuel rest
        return (c :: more, rest)
    | c :: rest =>
      if isControl c && c ≠ '\n' && c ≠ '\r' then none
      else do
        let (more, rest) ← longBasic? fuel rest
        return (c :: more, rest)

/-- Reads a text over several lines up to three closing apostrophes, without escapes. -/
def longLiteral? : List Char → Option (List Char × List Char)
  | [] => none
  | '\x27' :: '\x27' :: '\x27' :: rest => some ([], rest)
  | c :: rest =>
    if isControl c && c ≠ '\n' && c ≠ '\r' then none
    else (longLiteral? rest).map fun (more, rest) => (c :: more, rest)

def text? (cs : List Char) : Option (String × List Char) :=
  let found := match cs with
    | '\x22' :: '\x22' :: '\x22' :: rest => longBasic? (rest.length + 1) (skipNewline rest)
    | '\x22' :: rest => basic? (rest.length + 1) rest
    | '\x27' :: '\x27' :: '\x27' :: rest => longLiteral? (skipNewline rest)
    | '\x27' :: rest => literal? rest
    | _ => none
  found.map fun (s, rest) => (String.ofList s, rest)

def isBare (c : Char) : Bool := c.isAlphanum || c = '-' || c = '_'

def keyPart? (cs : List Char) : Option (String × List Char) :=
  match cs with
  | '\x22' :: rest => (basic? (rest.length + 1) rest).map fun (s, rest) => (String.ofList s, rest)
  | '\x27' :: rest => (literal? rest).map fun (s, rest) => (String.ofList s, rest)
  | cs =>
    let key := cs.takeWhile isBare
    if key.isEmpty then none else some (String.ofList key, cs.drop key.length)

/-- Reads a key: parts with points between them, at most `fuel` of them. Blanks after it are
dropped. -/
def key? : Nat → List Char → Option (List String × List Char)
  | 0, _ => none
  | fuel + 1, cs => do
    let (part, rest) ← keyPart? (skipBlanks cs)
    match skipBlanks rest with
    | '.' :: rest =>
      let (parts, rest) ← key? fuel rest
      return (part :: parts, rest)
    | rest => return ([part], rest)

/-- Does every underscore in a numeral stand between two digits? -/
def underscoresPlaced (isDigit : Char → Bool) : Bool → List Char → Bool
  | _, [] => true
  | before, '_' :: c :: cs => before && isDigit c && underscoresPlaced isDigit (isDigit c) cs
  | _, ['_'] => false
  | _, c :: cs => underscoresPlaced isDigit (isDigit c) cs

def integer? (base : Nat) (negative : Bool) (digits : List Char) : Option Datum := do
  let isDigit := fun c => (Text.digitValue? c).any (· < base)
  if digits.isEmpty || !underscoresPlaced isDigit false digits then none
  let n ← Text.readDigits? base digits 0
  let value : Int := if negative then -n else n
  if Text.fitsInt64 value then some (.integer value) else none

/-- The value of a numeral. After a leading zero comes the letter of a base, or one digit at
most. -/
def numeral? (cs : List Char) : Option Datum :=
  match cs with
  | '0' :: 'x' :: ds => integer? 16 false ds
  | '0' :: 'o' :: ds => integer? 8 false ds
  | '0' :: 'b' :: ds => integer? 2 false ds
  | '0' :: _ :: _ :: _ => if isFraction (String.ofList cs) then some .other else none
  | '-' :: ds => (integer? 10 true ds).or (if isFraction (String.ofList cs) then some .other else none)
  | '+' :: ds => (integer? 10 false ds).or (if isFraction (String.ofList cs) then some .other else none)
  | ds => (integer? 10 false ds).or (if isFraction (String.ofList cs) then some .other else none)

/-- The value of a word: a truth value, a numeral, or a date, which no option takes. -/
def word? (cs : List Char) : Option Datum :=
  if cs = "true".toList then some (.flag true)
  else if cs = "false".toList then some (.flag false)
  else if String.ofList cs ∈ ["inf", "+inf", "-inf", "nan", "+nan", "-nan"] then some .other
  else
    match numeral? cs with
    | some d => some d
    | none =>
      if (cs.take 4).all Char.isDigit && (cs.drop 4).head? = some '-' then some .other else none

def endsWord (c : Char) : Bool := c ∈ [' ', '\t', '\n', '\r', ',', ']', '\x7d', '#']

/-- Adds a value to a table at a key. Only tables on the way may be there already. -/
def insert? : List String → Datum → List (String × Datum) → Option (List (String × Datum))
  | [], _, _ => none
  | [k], d, entries => if (entries.lookup k).isSome then none else some (entries ++ [(k, d)])
  | k :: ks, d, entries =>
    match entries.lookup k with
    | none => (insert? ks d []).map fun inner => entries ++ [(k, .table inner)]
    | some (.table inner) =>
      (insert? ks d inner).map fun inner =>
        entries.map fun (k', d') => if k' = k then (k, .table inner) else (k', d')
    | some _ => none

mutual

def value? : Nat → List Char → Option (Datum × List Char)
  | 0, _ => none
  | fuel + 1, cs =>
    match cs with
    | '[' :: rest => items? fuel (skipSpace rest.length rest)
    | '\x7b' :: rest => fields? fuel [] (skipBlanks rest)
    | '\x22' :: _ | '\x27' :: _ => (text? cs).map fun (s, rest) => (.text s, rest)
    | cs =>
      let word := cs.takeWhile fun c => !endsWord c
      (word? word).map fun d => (d, cs.drop word.length)

def items? : Nat → List Char → Option (Datum × List Char)
  | 0, _ => none
  | fuel + 1, cs =>
    match cs with
    | ']' :: rest => some (.list [], rest)
    | cs => do
      let (d, rest) ← value? fuel cs
      match skipSpace rest.length rest with
      | ',' :: rest =>
        match ← items? fuel (skipSpace rest.length rest) with
        | (.list ds, rest) => some (.list (d :: ds), rest)
        | _ => none
      | ']' :: rest => some (.list [d], rest)
      | _ => none

/-- Reads the fields of a table in braces up to its end. -/
def fields? : Nat → List (String × Datum) → List Char → Option (Datum × List Char)
  | 0, _, _ => none
  | fuel + 1, entries, cs =>
    match cs with
    | '\x7d' :: rest => if entries.isEmpty then some (.table [], rest) else none
    | cs => do
      let (key, rest) ← key? (cs.length + 1) cs
      match rest with
      | '=' :: rest =>
        let (d, rest) ← value? fuel (skipBlanks rest)
        let entries ← insert? key d entries
        match skipBlanks rest with
        | ',' :: rest =>
          match skipBlanks rest with
          | '\x7d' :: _ => none
          | rest => fields? fuel entries rest
        | '\x7d' :: rest => some (.table entries, rest)
        | _ => none
      | _ => none

end

/-- A file that is being read: the table so far, the table that lines belong to, and the headers
that were met. -/
structure Progress where
  root : List (String × Datum)
  current : List String
  headers : List (List String)

/-- Makes sure that there is a table at a key. -/
def openTable? : List String → List (String × Datum) → Option (List (String × Datum))
  | [], entries => some entries
  | k :: ks, entries =>
    match entries.lookup k with
    | none => (openTable? ks []).map fun inner => entries ++ [(k, .table inner)]
    | some (.table inner) =>
      (openTable? ks inner).map fun inner =>
        entries.map fun (k', d') => if k' = k then (k, .table inner) else (k', d')
    | some _ => none

/-- Reads the lines of a file, at most `fuel` of them. -/
def lines? : Nat → Progress → List Char → Option Progress
  | 0, p, _ => some p
  | fuel + 1, p, cs =>
    match skipSpace cs.length cs with
    | [] => some p
    | '[' :: '[' :: _ => none
    | '[' :: rest => do
      let (key, rest) ← key? (rest.length + 1) rest
      match rest with
      | ']' :: rest =>
        let rest ← endLine? rest
        if key ∈ p.headers then none
        let root ← openTable? key p.root
        lines? fuel ⟨root, key, key :: p.headers⟩ rest
      | _ => none
    | cs => do
      let (key, rest) ← key? (cs.length + 1) cs
      match rest with
      | '=' :: rest =>
        let (d, rest) ← value? (rest.length + 1) (skipBlanks rest)
        let rest ← endLine? rest
        let root ← insert? (p.current ++ key) d p.root
        lines? fuel { p with root } rest
      | _ => none

end Mil.Config.Toml

namespace Mil.Config

def Datum.ofToml? (text : String) : Option Datum :=
  let cs := text.toList
  (Toml.lines? (cs.length + 1) ⟨[], [], []⟩ cs).map fun p => .table p.root

end Mil.Config
