/-!
Scalars of structured text. A scalar is plain, or stands between single or double quotes. Line
breaks inside a scalar are folded: one break is a space, and of several the first is dropped. All
readers go over the text one character at a time.
-/

namespace Mil.Yaml

/-- Why a text is not a document. -/
inductive SyntaxError
  | controlCharacter
  | badIndentation
  | notAllowedHere
  | missingColon
  | unterminated
  | badEscape
  | unexpectedToken
deriving DecidableEq

/-- A place in the text: the line and column, both from zero, and the number of characters
before. -/
structure Mark where
  line : Nat
  col : Nat
  index : Nat

namespace Mark

def start : Mark := ⟨0, 0, 0⟩

def next (m : Mark) : Mark := ⟨m.line, m.col + 1, m.index + 1⟩

def newline (m : Mark) : Mark := ⟨m.line + 1, 0, m.index + 1⟩

end Mark

def isBlank (c : Char) : Bool := c = ' ' || c = '\t'

/-- Line breaks; the two characters beside the line feed are the separators of lines and
paragraphs. -/
def isBreak (c : Char) : Bool := c = '\n' || c = '\u2028' || c = '\u2029'

def blankAhead : List Char → Bool
  | [] => true
  | c :: _ => isBlank c || isBreak c

/-- Does a line that starts here mark the start or the end of a document? -/
def documentMarker : List Char → Bool
  | '-' :: '-' :: '-' :: cs => blankAhead cs
  | '.' :: '.' :: '.' :: cs => blankAhead cs
  | _ => false

/-- Blanks and breaks since the last character of a scalar: blanks of one line, or a first break
that may have been escaped away and the breaks after it. -/
inductive Gap
  | blanks (cs : List Char)
  | breaks (first : Option Char) (more : List Char)

namespace Gap

def none : Gap := .blanks []

def broken : Gap → Bool
  | .blanks _ => false
  | .breaks _ _ => true

/-- Is there anything since the last character? -/
def isEmpty : Gap → Bool
  | .blanks cs => cs.isEmpty
  | .breaks _ _ => false

/-- Adds a blank, which counts only before the first break. -/
def addBlank (c : Char) : Gap → Gap
  | .blanks cs => .blanks (cs ++ [c])
  | g => g

def addBreak (c : Char) : Gap → Gap
  | .blanks _ => .breaks (some c) []
  | .breaks first more => .breaks first (more ++ [c])

def fold : Gap → List Char
  | .blanks cs => cs
  | .breaks (some '\n') [] => [' ']
  | .breaks (some '\n') more => more
  | .breaks first more => first.toList ++ more

end Gap

/-- A scalar that was read: its text, what is left, where that starts, where the scalar ends, and
whether breaks follow it. -/
structure Scanned where
  text : String
  rest : List Char
  mark : Mark
  stop : Mark
  broken : Bool

def endsPlain (flow : Bool) (c : Char) (cs : List Char) : Bool :=
  (c = ':' && blankAhead cs) || (flow && c ∈ [',', '?', '[', ']', '\x7b', '\x7d'])

/-- Reads a plain scalar. `acc` holds its characters so far, last one first. -/
def scanPlain (flow : Bool) (indent : Int) :
    List Char → Mark → Mark → Gap → List Char → Except SyntaxError Scanned
  | [], m, stop, gap, acc => .ok ⟨String.ofList acc.reverse, [], m, stop, gap.broken⟩
  | c :: cs, m, stop, gap, acc =>
    if isBlank c then
      if gap.broken && m.col < indent && c = '\t' then .error .badIndentation
      else scanPlain flow indent cs m.next stop (gap.addBlank c) acc
    else if isBreak c then scanPlain flow indent cs m.newline stop (gap.addBreak c) acc
    else if (gap.broken && !flow && m.col < indent) || (m.col = 0 && documentMarker (c :: cs))
        || (c = '#' && !gap.isEmpty) || endsPlain flow c cs then
      .ok ⟨String.ofList acc.reverse, c :: cs, m, stop, gap.broken⟩
    else scanPlain flow indent cs m.next m.next .none (c :: (gap.fold.reverse ++ acc))

/-- Where the reader of a quoted scalar stands: among ordinary characters, after a backslash, or
inside the digits of a character number. -/
inductive QuoteMode
  | plain
  | escape
  | number (left value : Nat)

def escaped? : Char → Option Char
  | '0' => some '\x00'
  | 'a' => some '\x07'
  | 'b' => some '\x08'
  | 't' => some '\t'
  | '\t' => some '\t'
  | 'n' => some '\n'
  | 'v' => some '\x0b'
  | 'f' => some '\x0c'
  | 'r' => some '\r'
  | 'e' => some '\x1b'
  | ' ' => some ' '
  | '\x22' => some '\x22'
  | '\x27' => some '\x27'
  | '/' => some '/'
  | '\\' => some '\\'
  | 'N' => some '\u0085'
  | '_' => some '\u00a0'
  | 'L' => some '\u2028'
  | 'P' => some '\u2029'
  | _ => none

/-- The number of digits that a letter after a backslash announces. -/
def escapeDigits? : Char → Option Nat
  | 'x' => some 2
  | 'u' => some 4
  | 'U' => some 8
  | _ => none

def hexValue? (c : Char) : Option Nat :=
  if '0' ≤ c ∧ c ≤ '9' then some (c.toNat - '0'.toNat)
  else if 'a' ≤ c ∧ c ≤ 'f' then some (c.toNat - 'a'.toNat + 10)
  else if 'A' ≤ c ∧ c ≤ 'F' then some (c.toNat - 'A'.toNat + 10)
  else none

/-- The character of a number, unless the number is none of a character. -/
def charOf? (n : Nat) : Option Char :=
  if n < 0xd800 ∨ (0xdfff < n ∧ n ≤ 0x10ffff) then some (Char.ofNat n) else none

def scanDouble : List Char → Mark → QuoteMode → Gap → List Char → Except SyntaxError Scanned
  | [], _, _, _, _ => .error .unterminated
  | c :: cs, m, .plain, gap, acc =>
    if isBlank c then scanDouble cs m.next .plain (gap.addBlank c) acc
    else if isBreak c then scanDouble cs m.newline .plain (gap.addBreak c) acc
    else if m.col = 0 && documentMarker (c :: cs) then .error .unterminated
    else
      let acc := gap.fold.reverse ++ acc
      if c = '\x22' then .ok ⟨String.ofList acc.reverse, cs, m.next, m.next, false⟩
      else if c = '\\' then scanDouble cs m.next .escape .none acc
      else scanDouble cs m.next .plain .none (c :: acc)
  | c :: cs, m, .escape, _, acc =>
    if isBreak c then scanDouble cs m.newline .plain (.breaks none []) acc
    else
      match escaped? c, escapeDigits? c with
      | some d, _ => scanDouble cs m.next .plain .none (d :: acc)
      | none, some k => scanDouble cs m.next (.number k 0) .none acc
      | none, none => .error .badEscape
  | c :: cs, m, .number left value, _, acc =>
    match hexValue? c with
    | none => .error .badEscape
    | some d =>
      let value := value * 16 + d
      if left ≤ 1 then
        match charOf? value with
        | some d => scanDouble cs m.next .plain .none (d :: acc)
        | none => .error .badEscape
      else scanDouble cs m.next (.number (left - 1) value) .none acc

/-- Reads the rest of a scalar in single quotes, where a quote is written twice. -/
def scanSingle : List Char → Mark → Gap → List Char → Except SyntaxError Scanned
  | [], _, _, _ => .error .unterminated
  | '\x27' :: '\x27' :: cs, m, gap, acc =>
    scanSingle cs m.next.next .none ('\x27' :: (gap.fold.reverse ++ acc))
  | c :: cs, m, gap, acc =>
    if isBlank c then scanSingle cs m.next (gap.addBlank c) acc
    else if isBreak c then scanSingle cs m.newline (gap.addBreak c) acc
    else if m.col = 0 && documentMarker (c :: cs) then .error .unterminated
    else
      let acc := gap.fold.reverse ++ acc
      if c = '\x27' then .ok ⟨String.ofList acc.reverse, cs, m.next, m.next, false⟩
      else scanSingle cs m.next .none (c :: acc)

end Mil.Yaml
