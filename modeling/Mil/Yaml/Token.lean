import Mil.Yaml.Scalar

/-!
Tokens of structured text. Outside brackets the columns of lines make the structure: a mapping or
list starts where a key or a dash stands further to the right than what surrounds it, and ends where
a line starts further to the left. A key is known as such only when its colon is met, which must be
on the same line, so the tokens that announce it are put in before it afterwards.
-/

namespace Mil.Yaml

inductive Token
  | listStart
  | mapStart
  | blockEnd
  | openList
  | closeList
  | openMap
  | closeMap
  | comma
  | dash
  | key
  | value
  | scalar (text : String) (plain : Bool)
  | documentStart
  | documentEnd
  | finish
  | bad (e : SyntaxError)
deriving DecidableEq

/-- A token, and where it starts and ends. -/
structure Lexeme where
  token : Token
  start : Mark
  stop : Mark

/-- Something that will have been a key if a colon follows on the same line: the number of its first
token and its place. A required one cannot be anything else. -/
structure KeyCandidate where
  number : Nat
  mark : Mark
  required : Bool

/-- The state of the scanner. The indentations are those of the open blocks, the innermost first;
there is one place for a key candidate outside brackets and one for each open bracket, innermost
first. -/
structure Scanner where
  lexemes : Array Lexeme
  indents : List Int
  candidates : List (Option KeyCandidate)
  keyAllowed : Bool

namespace Scanner

def start : Scanner := ⟨#[], [], [none], true⟩

def inFlow (s : Scanner) : Bool := 1 < s.candidates.length

def indent (s : Scanner) : Int := (s.indents.head?).getD (-1)

def push (s : Scanner) (token : Token) (start stop : Mark) : Scanner :=
  { s with lexemes := s.lexemes.push ⟨token, start, stop⟩ }

/-- Puts a token before the token with the given number. -/
def insert (s : Scanner) (number : Nat) (token : Token) (m : Mark) : Scanner :=
  { s with lexemes := s.lexemes.insertIdxIfInBounds number ⟨token, m, m⟩ }

/-- Ends all blocks that are further to the right than the column. -/
def unroll (s : Scanner) (col : Int) (m : Mark) : Scanner :=
  if s.inFlow then s
  else
    let closed := s.indents.takeWhile fun i => col < i
    closed.foldl (fun s _ => s.push .blockEnd m m)
      { s with indents := s.indents.dropWhile fun i => col < i }

/-- Starts a block at a column, unless one is open there. -/
def roll (s : Scanner) (m : Mark) (token : Token) (number : Option Nat) : Scanner :=
  if s.inFlow || (m.col : Int) ≤ s.indent then s
  else
    let s := { s with indents := (m.col : Int) :: s.indents }
    match number with
    | some n => s.insert n token m
    | none => s.push token m m

def candidate (s : Scanner) : Option KeyCandidate := (s.candidates.head?).join

/-- Changes the key candidate of the innermost bracket. -/
def setCandidate (s : Scanner) (c : Option KeyCandidate) : Scanner :=
  { s with candidates := c :: s.candidates.tail }

/-- Gives up the key candidate; one that is required must not be given up. -/
def dropCandidate (s : Scanner) : Except SyntaxError Scanner :=
  match s.candidate with
  | some c => if c.required then .error .missingColon else .ok (s.setCandidate none)
  | none => .ok s

/-- Makes what starts here a key candidate, where keys are allowed. -/
def saveCandidate (s : Scanner) (m : Mark) : Except SyntaxError Scanner :=
  if s.keyAllowed then do
    let required := !s.inFlow && s.indent = (m.col : Int)
    let s ← s.dropCandidate
    return s.setCandidate (some ⟨s.lexemes.size, m, required⟩)
  else return s

/-- The key candidate, if a colon here makes it a key: it must be on the same line and no more than
1024 characters away. -/
def validCandidate (s : Scanner) (m : Mark) : Except SyntaxError (Option KeyCandidate) :=
  match s.candidate with
  | none => .ok none
  | some c =>
    if c.mark.line < m.line || c.mark.index + 1024 < m.index then
      if c.required then .error .missingColon else .ok none
    else .ok (some c)

def openBracket (s : Scanner) (token : Token) (m : Mark) : Except SyntaxError Scanner := do
  let s ← s.saveCandidate m
  return { s.push token m m.next with candidates := none :: s.candidates, keyAllowed := true }

def closeBracket (s : Scanner) (token : Token) (m : Mark) : Except SyntaxError Scanner := do
  let s ← s.dropCandidate
  let candidates := if s.inFlow then s.candidates.tail else s.candidates
  return { s.push token m m.next with candidates, keyAllowed := false }

def comma (s : Scanner) (m : Mark) : Except SyntaxError Scanner := do
  let s ← s.dropCandidate
  return { s.push .comma m m.next with keyAllowed := true }

def dash (s : Scanner) (m : Mark) : Except SyntaxError Scanner := do
  if !s.inFlow && !s.keyAllowed then throw .notAllowedHere
  let s ← (s.roll m .listStart none).dropCandidate
  return { s.push .dash m m.next with keyAllowed := true }

def key (s : Scanner) (m : Mark) : Except SyntaxError Scanner := do
  if !s.inFlow && !s.keyAllowed then throw .notAllowedHere
  let s ← (s.roll m .mapStart none).dropCandidate
  return { s.push .key m m.next with keyAllowed := !s.inFlow }

def value (s : Scanner) (m : Mark) : Except SyntaxError Scanner := do
  match ← s.validCandidate m with
  | some c =>
    let s := (s.insert c.number .key c.mark).roll c.mark .mapStart (some c.number)
    return { (s.setCandidate none).push .value m m.next with keyAllowed := false }
  | none =>
    if !s.inFlow && !s.keyAllowed then throw .notAllowedHere
    let s := (s.setCandidate none).roll m .mapStart none
    return { s.push .value m m.next with keyAllowed := !s.inFlow }

/-- The start or the end of a document. -/
def marker (s : Scanner) (token : Token) (m : Mark) : Except SyntaxError Scanner := do
  let s ← (s.unroll (-1) m).dropCandidate
  return { s.push token m m.next.next.next with keyAllowed := false }

def finish (s : Scanner) (m : Mark) : Except SyntaxError Scanner := do
  let m := if m.col = 0 then m else m.newline
  let s ← (s.unroll (-1) m).dropCandidate
  return { s.push .finish m m with keyAllowed := false }

/-- Passes over blanks, comments and line breaks. Tabs count as blanks only where no key can
start. -/
def skip (flow : Bool) : List Char → Mark → Bool → Bool → List Char × Mark × Bool
  | [], m, keyAllowed, _ => ([], m, keyAllowed)
  | c :: cs, m, keyAllowed, comment =>
    if isBreak c then skip flow cs m.newline (keyAllowed || !flow) false
    else if comment || c = ' ' || (c = '\t' && (flow || !keyAllowed)) then
      skip flow cs m.next keyAllowed comment
    else if c = '#' then skip flow cs m.next keyAllowed true
    else (c :: cs, m, keyAllowed)

def startsPlain (flow : Bool) (c : Char) (cs : List Char) : Bool :=
  if c = '-' then !((cs.head?).any isBlank)
  else if c = '?' || c = ':' then !flow && !blankAhead cs
  else !isBlank c && !isBreak c && c ∉ [',', '[', ']', '\x7b', '\x7d', '#', '&', '*', '!', '|', '>',
    '\x27', '\x22', '%', '@', '\x60']

/-- Takes up a scalar that was read. -/
def scalar (s : Scanner) (m : Mark) (plain : Bool) (r : Scanned) : List Char × Mark × Scanner :=
  (r.rest, r.mark, { s.push (.scalar r.text plain) m r.stop with keyAllowed := r.broken })

/-- Reads a scalar that starts here. -/
def scanScalar (s : Scanner) (c : Char) (cs : List Char) (m : Mark) :
    Except SyntaxError (List Char × Mark × Scanner) := do
  if c = '\x22' then
    let s ← s.saveCandidate m
    return s.scalar m false (← scanDouble cs m.next .plain .none [])
  else if c = '\x27' then
    let s ← s.saveCandidate m
    return s.scalar m false (← scanSingle cs m.next .none [])
  else if startsPlain s.inFlow c cs then
    let s ← s.saveCandidate m
    return s.scalar m true (← scanPlain s.inFlow (s.indent + 1) (c :: cs) m m .none [])
  else throw .notAllowedHere

def token (s : Scanner) (c : Char) (cs : List Char) (m : Mark) :
    Except SyntaxError (List Char × Mark × Scanner) := do
  let simple (s : Scanner) : List Char × Mark × Scanner := (cs, m.next, s)
  if m.col = 0 && documentMarker (c :: cs) then
    let token := if c = '-' then Token.documentStart else .documentEnd
    return (cs.drop 2, m.next.next.next, ← s.marker token m)
  match c with
  | '[' => return simple (← s.openBracket .openList m)
  | '\x7b' => return simple (← s.openBracket .openMap m)
  | ']' => return simple (← s.closeBracket .closeList m)
  | '\x7d' => return simple (← s.closeBracket .closeMap m)
  | ',' => return simple (← s.comma m)
  | '-' => if blankAhead cs then return simple (← s.dash m) else s.scanScalar c cs m
  | '?' =>
    if s.inFlow || blankAhead cs then return simple (← s.key m) else s.scanScalar c cs m
  | ':' =>
    if s.inFlow || blankAhead cs then return simple (← s.value m) else s.scanScalar c cs m
  | c => s.scanScalar c cs m

/-- Reads all tokens; each step takes at least one character. -/
def run : Nat → Scanner → List Char → Mark → Array Lexeme
  | 0, s, _, _ => s.lexemes
  | fuel + 1, s, cs, m =>
    let (cs, m, keyAllowed) := skip s.inFlow cs m s.keyAllowed false
    let s := { s with keyAllowed }.unroll m.col m
    match cs with
    | [] =>
      match s.finish m with
      | .ok s => s.lexemes
      | .error e => (s.push (.bad e) m m).lexemes
    | c :: cs =>
      match s.token c cs m with
      | .ok (cs, m, s) => run fuel s cs m
      | .error e => (s.push (.bad e) m m).lexemes

end Scanner

def isAllowed (c : Char) : Bool :=
  let n := c.toNat
  n = 9 || n = 10 || n = 13 || (0x20 ≤ n && n ≤ 0x7e) || n = 0x85 || (0xa0 ≤ n && n ≤ 0xd7ff)
    || (0xe000 ≤ n && n ≤ 0xfffd) || 0x10000 ≤ n

/-- Writes every line break of one or two control characters as a line feed. -/
def normalizeBreaks : List Char → List Char
  | [] => []
  | '\r' :: '\n' :: cs => '\n' :: normalizeBreaks cs
  | c :: cs => (if c = '\r' || c = '\u0085' then '\n' else c) :: normalizeBreaks cs

def dropByteOrderMark : List Char → List Char
  | [] => []
  | c :: cs => if c = '\ufeff' then cs else c :: cs

/-- The tokens of a text, by its characters. They end with `finish`, or with what is wrong. -/
def tokens (text : List Char) : List Lexeme :=
  let cs := dropByteOrderMark text
  if cs.all isAllowed then
    (Scanner.run (cs.length + 1) .start (normalizeBreaks cs) .start).toList
  else [⟨.bad .controlCharacter, .start, .start⟩]

end Mil.Yaml
