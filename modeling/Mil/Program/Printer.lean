import Mil.Program.Graph

/-!
The text of programs. Temporaries are numbered from zero in each definition, in the order in which
they are first mentioned, so that the text does not depend on how they were made. A binding mentions
its right side before the temporaries that it binds.
-/

namespace Mil

/-- The temporaries that a body mentions, in order. -/
def Code.mentions : Code → List Temp
  | .bind vars tail next => tail.atoms.filterMap Atom.temp? ++ vars ++ next.mentions
  | c => c.atoms.filterMap Atom.temp?

/-- The temporaries that a definition mentions, in order. -/
def DefnBody.mentions : DefnBody → List Temp
  | .block b => b.params ++ (b.body.map Code.mentions).getD []
  | .closure k => k.params ++ k.args ++ (k.tail.map fun t => t.atoms.filterMap Atom.temp?).getD []
  | .top t => (t.tail.map fun t => t.atoms.filterMap Atom.temp?).getD []
  | .external _ => []

/-- What texts depend on: the program and the temporaries in the order of their numbers. -/
structure Printer where
  program : Program
  order : List Temp

namespace Printer

def temp (pr : Printer) (t : Temp) : String := "t" ++ toString (pr.order.idxOf t)

/-- The names of temporaries, with commas between them. -/
def temps (pr : Printer) (ts : List Temp) : String := ", ".intercalate (ts.map pr.temp)

/-- The name of a top-level value. -/
def topName (pr : Printer) (id : DefnId) (index : Nat) : Option String :=
  (pr.program.defns[id]?).map fun d =>
    match d.body with
    | .top t => ((t.lhs[index]?).map TopName.name).getD d.name
    | _ => d.name

def atom (pr : Printer) (a : Atom) : String :=
  match a with
  | .temp t => pr.temp t
  | .lit l => l.render
  | .top id index _ => (pr.topName id index).getD a.render

/-- The texts of operands, with commas between them. -/
def atoms (pr : Printer) (as : List Atom) : String := ", ".intercalate (as.map pr.atom)

def defnName (pr : Printer) (id : DefnId) : String :=
  match pr.program.defns[id]? with
  | some d => d.name
  | none => "defn" ++ toString id

def call (pr : Printer) (c : BlockCall) : String :=
  pr.defnName c.block ++ "[" ++ pr.atoms c.args ++ "]"

def tail (pr : Printer) : Tail → String
  | .ret args => "return [" ++ pr.atoms args ++ "]"
  | .call c => pr.call c
  | .prim p args _ => p.name ++ "((" ++ pr.atoms args ++ "))"
  | .alloc k args _ => pr.defnName k ++ "\x7b" ++ pr.atoms args ++ "\x7d"
  | .data k args _ => k.name ++ "(" ++ pr.atoms args ++ ")"
  | .enter fn args => pr.atom fn ++ " @ [" ++ pr.atoms args ++ "]"
  | .sel k field arg _ => k.name ++ " " ++ toString field ++ " " ++ pr.atom arg

def tail? (pr : Printer) (t : Option Tail) : String := (t.map pr.tail).getD "?"

/-- The left side of a binding: one name, or a list of names in brackets. -/
def binders (pr : Printer) : List Temp → String
  | [v] => pr.temp v
  | vs => "[" ++ pr.temps vs ++ "]"

def code (pr : Printer) : Code → List String
  | .bind vars t next => ("  " ++ pr.binders vars ++ " <- " ++ pr.tail t) :: pr.code next
  | .done t => ["  " ++ pr.tail t]
  | .branch cond c d =>
    ["  if " ++ pr.atom cond ++ " then " ++ pr.call c ++ " else " ++ pr.call d]
  | .case scrut alts default =>
    ("  case " ++ pr.atom scrut ++ " of")
      :: (alts.map fun (k, c) => "    " ++ k.name ++ " -> " ++ pr.call c)
      ++ (default.map fun c => "    _ -> " ++ pr.call c).toList

/-- The line that declares a type. -/
def signature (name : String) (type : Option String) : List String :=
  (type.map fun t => name ++ " :: " ++ t).toList

def defn (pr : Printer) (d : Defn) : List String :=
  let store := pr.program.store
  (if d.entry then ["export " ++ d.name] else []) ++
    match d.body with
    | .block b =>
      signature d.name (b.declared.map (·.render store))
        ++ [d.name ++ "[" ++ pr.temps b.params ++ "] ="]
        ++ (b.body.map pr.code).getD []
    | .closure k =>
      signature d.name (k.declared.map (·.render store))
        ++ [d.name ++ "\x7b" ++ pr.temps k.params ++ "\x7d [" ++ pr.temps k.args ++ "] = "
          ++ pr.tail? k.tail]
    | .top t =>
      t.lhs.flatMap (fun l => signature l.name (l.declared.map (·.render store)))
        ++ [", ".intercalate (t.lhs.map TopName.name) ++ " <- " ++ pr.tail? t.tail]
    | .external e =>
      let generator :=
        if e.ref = "" then ""
        else " \x7b" ++ e.ref ++ String.join (e.types.map fun t => " (" ++ store.text t ++ ")")
          ++ "\x7d"
      ["external " ++ d.name ++ generator ++ " :: " ++ e.declared.render store]

end Printer

namespace Program

def printDefn (p : Program) (d : Defn) : String :=
  let pr : Printer := ⟨p, d.body.mentions.eraseDups⟩
  String.join ((pr.defn d).map (· ++ "\n"))

/-- The text of all definitions that can be reached, or of all if there are no entrypoints. -/
def print (p : Program) : String :=
  let ids := if p.entries.isEmpty then p.all else p.reachable
  "\n".intercalate (ids.filterMap fun id => (p.defns[id]?).map p.printDefn)

end Program

end Mil
