import Mil.Yaml.Token

/-!
Documents of structured text. A node is a scalar, a list or a mapping; a mapping keeps its entries
in order, with keys that are nodes themselves. What is left out, such as the value after a colon at
the end of a line, is an empty plain scalar at the place where it would have started.
-/

namespace Mil.Yaml

/-- Nodes, with the place where they start. -/
inductive Node
  | scalar (text : String) (plain : Bool) (mark : Mark)
  | list (items : List Node) (mark : Mark)
  | map (entries : List (Node × Node)) (mark : Mark)

namespace Node

def mark : Node → Mark
  | .scalar _ _ m => m
  | .list _ m => m
  | .map _ m => m

def missing (m : Mark) : Node := .scalar "" true m

def text : Node → String
  | .scalar t _ _ => t
  | _ => ""

/-- Readers of nodes work on the tokens that are left. -/
abbrev Read := StateT (List Lexeme) (Except SyntaxError)

def peek : Read Lexeme := do
  match ← get with
  | l :: _ => return l
  | [] => throw .unexpectedToken

def take : Read Lexeme := do
  match ← get with
  | l :: ls => set ls; return l
  | [] => throw .unexpectedToken

def takeIf (t : Token) : Read Bool := do
  if (← peek).token = t then
    let _ ← take
    return true
  else return false

/-- Reads a node, unless one of the given tokens comes next: then the node was left out. -/
def orMissing (stops : List Token) (m : Mark) (node : Read Node) : Read Node := do
  if (← peek).token ∈ stops then return missing m else node

mutual

/-- Reads a node. `block` allows mappings and lists that are laid out in columns, and `level` a list
whose dashes stand in the column of the key. -/
def node (block level : Bool) : Nat → Read Node
  | 0 => throw .unexpectedToken
  | fuel + 1 => do
    let l ← peek
    match l.token with
    | .scalar text plain =>
      let _ ← take
      return .scalar text plain l.start
    | .openList =>
      let _ ← take
      return .list (← flowItems fuel true) l.start
    | .openMap =>
      let _ ← take
      return .map (← flowEntries fuel true) l.start
    | .dash => if level then return .list (← levelItems fuel) l.start else throw .unexpectedToken
    | .listStart =>
      if !block then throw .unexpectedToken
      let _ ← take
      return .list (← blockItems fuel) l.start
    | .mapStart =>
      if !block then throw .unexpectedToken
      let _ ← take
      return .map (← blockEntries fuel) l.start
    | _ => throw .unexpectedToken

def blockItems : Nat → Read (List Node)
  | 0 => throw .unexpectedToken
  | fuel + 1 => do
    let l ← take
    match l.token with
    | .dash =>
      let item ← orMissing [.dash, .blockEnd] l.stop (node true false fuel)
      return item :: (← blockItems fuel)
    | .blockEnd => return []
    | _ => throw .unexpectedToken

def levelItems : Nat → Read (List Node)
  | 0 => throw .unexpectedToken
  | fuel + 1 => do
    let l ← peek
    if l.token = .dash then
      let _ ← take
      let item ← orMissing [.dash, .key, .value, .blockEnd] l.stop (node true false fuel)
      return item :: (← levelItems fuel)
    else return []

def blockEntries : Nat → Read (List (Node × Node))
  | 0 => throw .unexpectedToken
  | fuel + 1 => do
    let l ← take
    match l.token with
    | .key =>
      let k ← orMissing [.key, .value, .blockEnd] l.stop (node true true fuel)
      let l ← peek
      let v ← if ← takeIf .value then
          orMissing [.key, .value, .blockEnd] l.stop (node true true fuel)
        else pure (missing l.start)
      return (k, v) :: (← blockEntries fuel)
    | .blockEnd => return []
    | _ => throw .unexpectedToken

/-- Reads items up to the closing bracket. An item may be a single pair, which makes a mapping. -/
def flowItems : Nat → Bool → Read (List Node)
  | 0, _ => throw .unexpectedToken
  | fuel + 1, first => do
    if ← takeIf .closeList then return []
    if !first then
      if !(← takeIf .comma) then throw .unexpectedToken
    if ← takeIf .closeList then return []
    let l ← peek
    let item ← if ← takeIf .key then do
        let k ← orMissing [.value, .comma, .closeList] l.stop (node false false fuel)
        let v ← flowValue fuel .closeList
        pure (Node.map [(k, v)] l.start)
      else node false false fuel
    return item :: (← flowItems fuel false)

/-- Reads keys and values up to the closing brace. -/
def flowEntries : Nat → Bool → Read (List (Node × Node))
  | 0, _ => throw .unexpectedToken
  | fuel + 1, first => do
    if ← takeIf .closeMap then return []
    if !first then
      if !(← takeIf .comma) then throw .unexpectedToken
    if ← takeIf .closeMap then return []
    let l ← peek
    let entry ← if ← takeIf .key then do
        let k ← orMissing [.value, .comma, .closeMap] l.stop (node false false fuel)
        pure (k, ← flowValue fuel .closeMap)
      else do
        let k ← node false false fuel
        pure (k, missing (← peek).start)
    return entry :: (← flowEntries fuel false)

/-- Reads the value of a pair inside brackets; it may be left out. -/
def flowValue : Nat → Token → Read Node
  | 0, _ => throw .unexpectedToken
  | fuel + 1, close => do
    if ← takeIf .value then
      orMissing [.comma, close] (← peek).start (node false false fuel)
    else return missing (← peek).start

end

/-- Reads the first document of a text; nothing if there is none. -/
def document : Read (Option Node) := do
  modify fun ls => ls.dropWhile fun l => l.token = .documentEnd
  let fuel := 2 * (← get).length + 4
  let l ← peek
  match l.token with
  | .finish => return none
  | .bad e => throw e
  | _ =>
    let _ ← takeIf .documentStart
    let root ← orMissing [.documentStart, .documentEnd, .finish] (← peek).start (node true false fuel)
    match (← peek).token with
    | .bad e => throw e
    | _ => return some root

end Node

/-- The root of the first document of a text, by its characters; nothing for a text without one. -/
def Node.root (text : List Char) : Except SyntaxError (Option Node) :=
  (document.run (tokens text)).map Prod.fst

def Node.parse (text : String) : Except SyntaxError (Option Node) := root text.toList

end Mil.Yaml
