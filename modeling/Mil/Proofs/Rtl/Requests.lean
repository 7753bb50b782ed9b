import Mil.Proofs.Rtl.Place
import Mil.Rtl.Generate

/-!
What the construction of a function asks for and what its code names. Symbols of definitions and of the
code of closures are asked for, and nothing else is done with symbols; every instruction that is placed
names what the source of the function names, by the symbol that was given out for it.

Which definitions a source may name is a parameter. For a construction that starts from symbols which
are known already, what those say stays true.
-/

namespace Mil.Rtl

/-! ### Names -/

/-- What code may name: definitions that are called, definitions whose symbol stands for memory, closures
whose code is pointed to, and routines and variables from outside the program. -/
structure Uses where
  called : DefnId → Prop
  memory : DefnId → Prop
  coded : DefnId → Prop
  routine : String → Prop
  outer : String → Prop

namespace Uses

/-- Anything at all. -/
def any : Uses := ⟨fun _ => True, fun _ => True, fun _ => True, fun _ => True, fun _ => True⟩

/-- A definition that is named in some way. -/
def Named (u : Uses) (id : DefnId) : Prop := u.called id ∨ u.memory id ∨ u.coded id

/-- To read a top-level value is to name a variable, or the memory of a definition. -/
def Reads (u : Uses) (p : Mil.Program) (id : DefnId) : Prop :=
  ∀ d, p.defns[p.resolve id]? = some d →
    match d.body with
    | .external e =>
      match e.impl with
      | none => u.outer e.ref
      | some impl => u.memory (p.resolve impl)
    | _ => u.memory (p.resolve id)

/-- What an operand names. -/
def Operand (u : Uses) (p : Mil.Program) : Atom → Prop
  | .top id _ _ => u.Reads p id
  | _ => True

/-- All that a piece of code names, by its operands, calls, references and primitives. -/
structure Cover (u : Uses) (p : Mil.Program) (as : List Atom) (calls : List BlockCall)
    (refs : List DefnId) (prims : List String) : Prop where
  atoms : ∀ a ∈ as, u.Operand p a
  calls : ∀ c ∈ calls, u.called (p.resolve c.block)
  refs : ∀ r ∈ refs, u.coded (p.resolve r)
  prims : ∀ name ∈ prims, u.routine name

/-- All that a tail names. -/
def Tail (u : Uses) (p : Mil.Program) (t : Mil.Tail) : Prop :=
  u.Cover p t.atoms t.call?.toList t.refs (primNames t)

/-- All that a body names. -/
def Code (u : Uses) (p : Mil.Program) (c : Mil.Code) : Prop :=
  u.Cover p c.atoms c.allCalls c.refs ((tails c).flatMap primNames)

/-- Whatever a block names that is called may be named. -/
def Closed (u : Uses) (p : Mil.Program) : Prop :=
  ∀ {id b c}, u.called id → p.block id = .ok b → b.body = some c → u.Code p c

end Uses

/-- What an instruction names may be named, and is named by its symbol. -/
def Instr.Mentions (u : Uses) (s : Symbols) : Instr → Prop
  | .call (.symbol n) _ _ _ => u.routine n ∨ ∃ id, u.called id ∧ s.names.lookup id = some n
  | .tailcall (.symbol n) _ => ∃ id, u.called id ∧ s.names.lookup id = some n
  | .builtin n _ _ _ => n = "printWord"
  | .op (.addressOf n _) _ _ _ => ∃ id, u.coded id ∧ s.codeNames.lookup id = some n
  | .load _ (.global n _) _ _ _ => u.outer n ∨ ∃ id, u.memory id ∧ s.names.lookup id = some n
  | .store _ (.global n _) _ _ _ => u.outer n ∨ ∃ id, u.memory id ∧ s.names.lookup id = some n
  | _ => True

theorem Instr.Mentions.mono {u : Uses} {s s' : Symbols} {i : Instr} (hle : s.Le s')
    (h : i.Mentions u s) : i.Mentions u s' := by
  unfold Instr.Mentions at h ⊢
  split at h
  · exact h.imp_right fun ⟨id, hid, hn⟩ => ⟨id, hid, hle.names hn⟩
  · exact h.imp fun id ⟨hid, hn⟩ => ⟨hid, hle.names hn⟩
  · exact h
  · exact h.imp fun id ⟨hid, hn⟩ => ⟨hid, hle.codes hn⟩
  · exact h.imp_right fun ⟨id, hid, hn⟩ => ⟨id, hid, hle.names hn⟩
  · exact h.imp_right fun ⟨id, hid, hn⟩ => ⟨id, hid, hle.names hn⟩
  · trivial

theorem Instr.Mentions.mapSuccessors {u : Uses} {s : Symbols} (r : Node → Node) {i : Instr}
    (h : i.Mentions u s) : (i.mapSuccessors r).Mentions u s := by
  cases i with
  | op o => cases o <;> exact h
  | load _ a => cases a <;> exact h
  | store _ a => cases a <;> exact h
  | call fn => cases fn <;> exact h
  | nop | tailcall | builtin | alloc | branch | jump | ret | abort => exact h

/-- What the instructions of a function satisfy, whatever their successors, those of the finished
function satisfy. -/
theorem forall_code_finish {P : Instr → Prop} (hnop : ∀ s, P (.nop s))
    (hmap : ∀ r i, P i → P (i.mapSuccessors r)) {f : Function} (h : ∀ q ∈ f.code, P q.2) :
    ∀ q ∈ f.removeDead.1.tunnel.code, P q.2 := by
  have hdead : ∀ q ∈ f.removeDead.1.code, P q.2 := by
    refine Function.removeDead_induction (P := fun g => ∀ q ∈ g.code, P q.2) (fun g hg q hq => ?_) h
    rw [g.code_sweep] at hq
    obtain ⟨r, hr, rfl⟩ := List.mem_map.mp hq
    dsimp only
    rcases Function.swept_eq_or (Live.ofGraph g.code) r.2 with hkept | ⟨d, n, -, -, hswept⟩
    · rw [hkept]
      exact hg r hr
    · rw [hswept]
      exact hnop n
  intro q hq
  unfold Function.tunnel at hq
  split at hq
  · exact hdead q hq
  · obtain ⟨hq, -⟩ := List.mem_filter.mp hq
    obtain ⟨r, hr, rfl⟩ := List.mem_map.mp hq
    exact hmap _ _ (hdead r hr)

/-! ### Requests -/

/-- Symbols of definitions in a set and of the code of such are asked for, one after the other. -/
inductive Symbols.Requests (p : Mil.Program) (P : DefnId → Prop) : Symbols → Symbols → Prop
  | refl {s : Symbols} : Requests p P s s
  | defn {s s' : Symbols} {id : DefnId} (hid : P id) (h : Requests p P (s.ofDefn p id).2 s') :
      Requests p P s s'
  | code {s s' : Symbols} {id : DefnId} (hid : P id) (h : Requests p P (s.ofCode p id).2 s') :
      Requests p P s s'

namespace Symbols.Requests

variable {p : Mil.Program} {P : DefnId → Prop} {s s' s'' : Symbols}

theorem trans (h : Requests p P s s') (h' : Requests p P s' s'') : Requests p P s s'' := by
  induction h with
  | refl => exact h'
  | defn hid _ ih => exact .defn hid (ih h')
  | code hid _ ih => exact .code hid (ih h')

theorem le (h : Requests p P s s') : s.Le s' := by
  induction h with
  | refl => exact .refl _
  | defn hid _ ih => exact (le_ofDefn _ p _).trans ih
  | code hid _ ih => exact (le_ofCode _ p _).trans ih

end Symbols.Requests

/-- Between two points of a construction symbols are asked for, instructions are placed that name what
may be named, and blocks are put in line that may be called. -/
structure Extends (u : Uses) (p : Mil.Program) (b b' : Builder) : Prop where
  symbols : b.symbols.Requests p u.Named b'.symbols
  code : ∀ {q}, q ∈ b'.code → q ∈ b.code ∨ q.2.Mentions u b'.symbols
  waiting : ∀ id ∈ b'.pending, u.called id

/-- Wherever the symbols `s` are known and blocks wait that may be called, the construction asks for what
may be named and places code that names it. -/
structure Asks {α : Type} (u : Uses) (cx : Setting) (s : Symbols) (x : BuildM α) : Prop where
  extends_of : ∀ {b : Builder} {a : α} {b' : Builder}, s.Le b.symbols →
    (∀ id ∈ b.pending, u.called id) → Builds cx x b a b' → Extends u cx.program b b'

section Extends

variable {u : Uses} {p : Mil.Program} {b b' b'' : Builder}

/-- Nothing is placed, and symbols and the line are left alone. -/
theorem Extends.of_eq (hwaiting : ∀ id ∈ b.pending, u.called id) (hsymbols : b'.symbols = b.symbols)
    (hcode : b'.code = b.code) (hpending : b'.pending = b.pending) : Extends u p b b' :=
  ⟨hsymbols ▸ .refl, fun hq => .inl (hcode ▸ hq), hpending ▸ hwaiting⟩

theorem Extends.trans (h : Extends u p b b') (h' : Extends u p b' b'') : Extends u p b b'' where
  symbols := h.symbols.trans h'.symbols
  code hq := (h'.code hq).elim (fun hq => (h.code hq).imp_right (.mono h'.symbols.le)) .inr
  waiting := h'.waiting

end Extends

section Asks

variable {α β : Type} {u : Uses} {cx : Setting} {s : Symbols} {x : BuildM α}

theorem asks_of_eq (h : ∀ {b a b'}, Builds cx x b a b' → b'.symbols = b.symbols ∧ b'.code = b.code ∧
    b'.pending = b.pending) : Asks u cx s x :=
  ⟨fun _ hw hx => .of_eq hw (h hx).1 (h hx).2.1 (h hx).2.2⟩

theorem asks_pure (a : α) : Asks u cx s (pure a : BuildM α) := asks_of_eq fun h => by
  obtain ⟨-, rfl⟩ := Builds.pure_iff.mp h
  exact ⟨rfl, rfl, rfl⟩

theorem asks_throw (e : Defect) : Asks u cx s (throw e : BuildM α) :=
  ⟨fun _ _ h => (Builds.throw_iff h).elim⟩

theorem asks_throw_bind (e : Defect) (f : α → BuildM β) :
    Asks u cx s ((throw e : BuildM α) >>= f) := by
  refine ⟨fun _ _ h => ?_⟩
  obtain ⟨_, _, h, -⟩ := Builds.bind_iff.mp h
  exact (Builds.throw_iff h).elim

theorem asks_get : Asks u cx s (get : BuildM Builder) := asks_of_eq fun h => by
  obtain ⟨-, rfl⟩ := Builds.get_iff.mp h
  exact ⟨rfl, rfl, rfl⟩

theorem asks_read_bind {f : Setting → BuildM β} (h : Asks u cx s (f cx)) :
    Asks u cx s (read >>= f) :=
  ⟨fun hs hw hx => h.extends_of hs hw (Builds.read_bind.mp hx)⟩

theorem asks_resolve_bind {id : DefnId} {f : DefnId → BuildM β}
    (h : Asks u cx s (f (cx.program.resolve id))) : Asks u cx s (BuildM.resolve id >>= f) :=
  ⟨fun hs hw hx => h.extends_of hs hw (Builds.resolve_bind.mp hx)⟩

/-- What follows may rely on the run before it, on the symbols that are known by then, and on what waits
then. -/
theorem Asks.bind_of {f : α → BuildM β} (hx : Asks u cx s x)
    (hf : ∀ {b a b'}, Builds cx x b a b' → s.Le b'.symbols → (∀ id ∈ b'.pending, u.called id) →
      Asks u cx b'.symbols (f a)) : Asks u cx s (x >>= f) := by
  refine ⟨fun hs hw h => ?_⟩
  obtain ⟨a, b₁, hxa, hfa⟩ := Builds.bind_iff.mp h
  have hfirst := hx.extends_of hs hw hxa
  have hrest := hf hxa (hs.trans hfirst.symbols.le) hfirst.waiting
  exact hfirst.trans (hrest.extends_of (.refl _) hfirst.waiting hfa)

theorem Asks.mono {s' : Symbols} (h : Asks u cx s x) (hle : s.Le s') : Asks u cx s' x :=
  ⟨fun hs hw hx => h.extends_of (hle.trans hs) hw hx⟩

/-- In an empty function nothing waits. -/
theorem Asks.of_new (h : Asks u cx s x) {a : α} {b' : Builder} (hx : Builds cx x (.new s) a b') :
    Extends u cx.program (.new s) b' :=
  h.extends_of (.refl s) (fun _ hi => absurd hi List.not_mem_nil) hx

theorem Asks.bind {f : α → BuildM β} (hx : Asks u cx s x) (hf : ∀ a, Asks u cx s (f a)) :
    Asks u cx s (x >>= f) :=
  hx.bind_of fun _ hle _ => (hf _).mono hle

theorem Asks.map (hx : Asks u cx s x) (f : α → β) : Asks u cx s (f <$> x) := by
  rw [map_eq_pure_bind]
  exact hx.bind fun _ => asks_pure _

theorem asks_mapM {f : α → BuildM β} {as : List α} (hf : ∀ a ∈ as, Asks u cx s (f a)) :
    Asks u cx s (as.mapM f) := by
  induction as with
  | nil =>
      rw [List.mapM_nil]
      exact asks_pure _
  | cons a as ih =>
      rw [List.mapM_cons]
      exact (hf a (.head _)).bind fun _ => (ih fun a ha => hf a (.tail _ ha)).bind fun _ => asks_pure _

theorem asks_forM {f : α → BuildM Unit} {as : List α} (hf : ∀ a ∈ as, Asks u cx s (f a)) :
    Asks u cx s (as.forM f) := by
  induction as with
  | nil => exact asks_pure _
  | cons a as ih => exact Asks.bind (hf a (.head _)) fun _ => ih fun a ha => hf a (.tail _ ha)

end Asks

namespace BuildM

section Steps

variable {u : Uses} {cx : Setting} {s : Symbols}

/-! ### Single steps -/

theorem asks_freshNode : Asks u cx s freshNode := asks_of_eq fun h => by
  obtain ⟨-, rfl⟩ := Builds.freshNode_iff.mp h
  exact ⟨rfl, rfl, rfl⟩

theorem asks_freshReg : Asks u cx s freshReg := asks_of_eq fun h => by
  obtain ⟨-, rfl⟩ := Builds.freshReg_iff.mp h
  exact ⟨rfl, rfl, rfl⟩

theorem asks_freshRegs (n : Nat) : Asks u cx s (freshRegs n) := asks_mapM fun _ _ => asks_freshReg

theorem asks_startAt (n : Node) : Asks u cx s (startAt n) := asks_of_eq fun h => by
  cases Builds.startAt_iff.mp h
  exact ⟨rfl, rfl, rfl⟩

theorem asks_isOpen : Asks u cx s isOpen := asks_get.bind fun _ => asks_pure _

theorem asks_emit {make : Node → Instr} (hmake : ∀ n, (make n).Mentions u s) :
    Asks u cx s (emit make) := by
  refine ⟨fun {b _ b'} hs hw h => ?_⟩
  rcases Builds.emit_iff.mp h with ⟨-, rfl⟩ | ⟨n, -, rfl⟩
  · exact .of_eq hw rfl rfl rfl
  · refine ⟨.refl, fun hq => ?_, hw⟩
    rcases Graph.mem_insert hq with rfl | hq
    · exact .inr ((hmake _).mono hs)
    · exact .inl hq

theorem asks_terminate {i : Instr} (hi : i.Mentions u s) : Asks u cx s (terminate i) := by
  refine ⟨fun {b _ b'} hs hw h => ?_⟩
  rcases Builds.terminate_iff.mp h with ⟨-, rfl⟩ | ⟨n, -, rfl⟩
  · exact .of_eq hw rfl rfl rfl
  · refine ⟨.refl, fun hq => ?_, hw⟩
    rcases Graph.mem_insert hq with rfl | hq
    · exact .inr (hi.mono hs)
    · exact .inl hq

theorem asks_regOf (t : Temp) : Asks u cx s (regOf t) := asks_of_eq fun h => by
  rcases Builds.regOf_iff.mp h with ⟨-, rfl⟩ | ⟨-, -, rfl⟩ <;> exact ⟨rfl, rfl, rfl⟩

theorem asks_boundReg (t : Temp) : Asks u cx s (boundReg t) := asks_of_eq fun h => by
  obtain ⟨-, rfl⟩ := Builds.boundReg_iff.mp h
  exact ⟨rfl, rfl, rfl⟩

theorem asks_label? (id : DefnId) : Asks u cx s (label? id) := asks_get.bind fun _ => asks_pure _

theorem asks_newLabel {id : DefnId} (hid : u.called id) : Asks u cx s (newLabel id) := by
  refine ⟨fun {b _ b'} _ hw h => ?_⟩
  obtain ⟨-, rfl⟩ := Builds.newLabel_iff.mp h
  refine ⟨.refl, .inl, fun i hi => ?_⟩
  rcases List.mem_append.mp hi with hi | hi
  · exact hw i hi
  · exact List.mem_singleton.mp hi ▸ hid

theorem asks_setPending {pending : List DefnId} (hpending : ∀ id ∈ pending, u.called id) :
    Asks u cx s (modify fun b => { b with pending }) := by
  refine ⟨fun _ _ h => ?_⟩
  cases Builds.modify_iff.mp h
  exact ⟨.refl, .inl, hpending⟩

theorem asks_symbol {id : DefnId} (hid : u.Named id) : Asks u cx s (symbol id) := by
  refine ⟨fun {b _ b'} _ hw h => ?_⟩
  obtain ⟨-, rfl⟩ := Builds.symbol_iff.mp h
  exact ⟨.defn hid .refl, .inl, hw⟩

theorem asks_symbol_bind {β : Type} {id : DefnId} {f : String → BuildM β} (hid : u.Named id)
    (hf : ∀ {name s'}, s.Le s' → s'.names.lookup id = some name → Asks u cx s' (f name)) :
    Asks u cx s (symbol id >>= f) :=
  (asks_symbol hid).bind_of fun h hle _ => by
    obtain ⟨rfl, rfl⟩ := Builds.symbol_iff.mp h
    exact hf hle (Symbols.lookup_ofDefn _ _ _)

theorem asks_codeSymbol {id : DefnId} (hid : u.Named id) : Asks u cx s (codeSymbol id) := by
  refine ⟨fun {b _ b'} _ hw h => ?_⟩
  obtain ⟨-, rfl⟩ := Builds.codeSymbol_iff.mp h
  exact ⟨.code hid .refl, .inl, hw⟩

theorem asks_codeSymbol_bind {β : Type} {id : DefnId} {f : String → BuildM β} (hid : u.Named id)
    (hf : ∀ {name s'}, s.Le s' → s'.codeNames.lookup id = some name → Asks u cx s' (f name)) :
    Asks u cx s (codeSymbol id >>= f) :=
  (asks_codeSymbol hid).bind_of fun h hle _ => by
    obtain ⟨rfl, rfl⟩ := Builds.codeSymbol_iff.mp h
    exact hf hle (Symbols.lookup_ofCode _ _ _)

theorem asks_block (id : DefnId) : Asks u cx s (block id) := asks_of_eq fun h => by
  obtain ⟨-, rfl⟩ := Builds.block_iff.mp h
  exact ⟨rfl, rfl, rfl⟩

/-! ### Operands -/

theorem asks_operation {o : Operation} {args : List Reg} {dest : Reg}
    (ho : ∀ n, (Instr.op o args dest n).Mentions u s) : Asks u cx s (operation o args dest) :=
  asks_emit ho

theorem asks_move (src dest : Reg) : Asks u cx s (move src dest) := asks_operation fun _ => trivial

theorem asks_const (n : Int) : Asks u cx s (const n) :=
  asks_freshReg.bind fun _ => Asks.bind (asks_operation fun _ => trivial) fun _ => asks_pure _

theorem asks_wordOffset (index : Int) : Asks u cx s (wordOffset index) := asks_read_bind (asks_pure _)

theorem asks_loadWord (record : Reg) (index : Int) (dest : Reg) :
    Asks u cx s (loadWord record index dest) :=
  asks_read_bind ((asks_wordOffset _).bind fun _ => asks_emit fun _ => trivial)

theorem asks_storeWord (record : Reg) (index : Int) (src : Reg) :
    Asks u cx s (storeWord record index src) :=
  asks_read_bind ((asks_wordOffset _).bind fun _ => asks_emit fun _ => trivial)

/-- The address of a top-level value, and then the code that uses it. -/
theorem asks_topAddress_bind {β : Type} {id : DefnId} {index : Nat} {f : Address → BuildM β}
    (hid : u.Reads cx.program id)
    (hf : ∀ {name s'} (offset : Int), s.Le s' →
      (u.outer name ∨ ∃ id, u.memory id ∧ s'.names.lookup id = some name) →
      Asks u cx s' (f (.global name offset))) : Asks u cx s (topAddress id index >>= f) := by
  have hsymbol {i : DefnId} (offset : Int) (hi : u.memory i) :
      Asks u cx s ((do return .global (← symbol i) offset) >>= f) := by
    rw [bind_assoc]
    refine asks_symbol_bind (.inr (.inl hi)) fun hle hname => ?_
    rw [pure_bind]
    exact hf offset hle (.inr ⟨i, hi, hname⟩)
  rw [topAddress]
  simp only [bind_assoc]
  refine asks_read_bind ((asks_wordOffset _).bind fun offset => ?_)
  split
  · exact asks_throw_bind _ _
  · rename_i d hd
    have hreads := hid d (exists_of_defn hd)
    split
    · rename_i e hbody
      rw [hbody] at hreads
      dsimp only at hreads
      split
      · rename_i himpl
        rw [himpl] at hreads
        rw [pure_bind]
        exact hf _ (.refl _) (.inl hreads)
      · rename_i impl himpl
        rw [himpl] at hreads
        exact hsymbol _ hreads
    · rename_i hbody
      refine hsymbol _ ?_
      split at hreads
      · rename_i e he
        exact (hbody e he).elim
      · exact hreads

theorem asks_atom {a : Atom} (ha : u.Operand cx.program a) : Asks u cx s (atom a) := by
  unfold atom
  split
  · exact asks_boundReg _
  · exact asks_read_bind (asks_const _)
  · exact asks_const _
  · refine asks_freshReg.bind fun _ => asks_topAddress_bind ha fun _ hle hname => ?_
    exact asks_read_bind (Asks.bind (asks_emit fun _ => hname) fun _ => asks_pure _)

theorem asks_atoms {as : List Atom} (has : ∀ a ∈ as, u.Operand cx.program a) :
    Asks u cx s (atoms as) :=
  asks_mapM fun a ha => asks_atom (has a ha)

/-! ### Tails -/

theorem asks_firstDest (dests : List Reg) : Asks u cx s (firstDest dests) := by
  cases dests with
  | nil => exact asks_freshReg
  | cons d _ => exact asks_pure d

theorem asks_record {head : BuildM Reg} {args : List Atom} (hhead : Asks u cx s head)
    (hargs : ∀ a ∈ args, u.Operand cx.program a) (dests : List Reg) :
    Asks u cx s (record head args dests) :=
  (asks_atoms hargs).bind fun _ => (asks_firstDest dests).bind fun _ =>
    Asks.bind (asks_emit fun _ => trivial) fun _ => hhead.bind fun _ =>
      (asks_storeWord _ _ _).bind fun _ => asks_forM fun _ _ => asks_storeWord _ _ _

theorem asks_checkDivisor (y : Reg) : Asks u cx s (checkDivisor y) :=
  asks_freshNode.bind fun _ => asks_freshNode.bind fun _ => Asks.bind (asks_terminate trivial) fun _ =>
    (asks_startAt _).bind fun _ => Asks.bind (asks_terminate trivial) fun _ => asks_startAt _

theorem asks_access (name : String) (a : MemAccess) (args dests : List Reg) :
    Asks u cx s (access name a args dests) := by
  unfold access
  refine asks_read_bind ?_
  dsimp only
  split
  · exact asks_throw_bind _ _
  split
  · exact asks_emit fun _ => trivial
  · exact (asks_firstDest _).bind fun _ => asks_emit fun _ => trivial
  · exact asks_pure _

theorem asks_primOperation (p : Prim) (args dests : List Reg) :
    Asks u cx s (primOperation p args dests) := by
  unfold primOperation
  split
  · exact asks_access _ _ _ _
  split
  · rename_i o ho
    refine (asks_firstDest _).bind fun _ => asks_operation fun _ => ?_
    -- no primitive is performed by taking an address
    generalize p.op = op at ho
    cases op <;> cases ho <;> trivial
  · exact asks_throw _

theorem asks_prim {p : Prim} {operands : List Atom}
    (hargs : ∀ a ∈ operands, u.Operand cx.program a)
    (hprim : p.op = .user → u.routine p.name) (dests : List Reg) :
    Asks u cx s (prim p operands dests) := by
  unfold prim
  refine (asks_atoms hargs).bind fun args => ?_
  split
  · exact asks_terminate trivial
  · exact asks_terminate trivial
  · exact asks_emit fun _ => rfl
  · rename_i huser
    refine Asks.bind (asks_emit fun _ => .inl (hprim huser)) fun _ => ?_
    split
    · exact asks_terminate trivial
    · exact asks_pure _
  · exact (asks_checkDivisor _).bind fun _ => asks_primOperation _ _ _
  · exact (asks_checkDivisor _).bind fun _ => asks_primOperation _ _ _
  · exact asks_primOperation _ _ _


/-- What neither calls nor enters anything. -/
theorem asks_compute {t : Option Mil.Tail} (ht : ∀ t' ∈ t, u.Tail cx.program t') (dests : List Reg) :
    Asks u cx s (compute t dests) := by
  unfold compute
  split
  · have ht := ht _ rfl
    exact (asks_atoms ht.atoms).bind fun _ => asks_forM fun _ _ => asks_move _ _
  · have ht := ht _ rfl
    exact asks_prim ht.atoms (fun huser => ht.prims _ (by simp [primNames, huser])) _
  · have ht := ht _ rfl
    have hcoded := ht.refs _ (List.mem_append_right _ (.head _))
    refine asks_resolve_bind (asks_record ?_ ht.atoms _)
    exact asks_freshReg.bind fun _ => asks_codeSymbol_bind (.inr (.inr hcoded)) fun _ hname =>
      Asks.bind (asks_operation fun _ => ⟨_, hcoded, hname⟩) fun _ => asks_pure _
  · exact asks_record (asks_const _) (ht _ rfl).atoms _
  · have ht := ht _ rfl
    exact (asks_atom (ht.atoms _ (.head _))).bind fun _ =>
      (asks_firstDest _).bind fun _ => asks_loadWord _ _ _
  · exact asks_throw _

theorem asks_entered {fn : Atom} {args : List Atom}
    (hargs : ∀ a ∈ fn :: args, u.Operand cx.program a) :
    Asks u cx s (entered fn args) :=
  (asks_atom (hargs _ (.head _))).bind fun _ =>
    (asks_atoms fun a ha => hargs a (.tail _ ha)).bind fun _ => asks_freshReg.bind fun _ =>
      (asks_loadWord _ _ _).bind fun _ => asks_pure _

/-- A call in the place of a symbol that is called. -/
theorem asks_bind {t : Option Mil.Tail} (ht : ∀ t' ∈ t, u.Tail cx.program t') (dests : List Reg) :
    Asks u cx s (BuildM.bind dests t) := by
  unfold BuildM.bind
  split
  · have ht := ht _ rfl
    have hcalled := ht.calls _ (.head _)
    exact asks_resolve_bind (asks_symbol_bind (.inl hcalled) fun _ hname =>
      (asks_atoms ht.atoms).bind_of fun _ hle _ =>
        asks_emit fun _ => .inr ⟨_, hcalled, hle.names hname⟩)
  · refine (asks_entered (ht _ rfl).atoms).bind_of fun h _ _ => asks_emit fun _ => ?_
    obtain ⟨-, code, hcode⟩ := acts_entered (w := 0) (D := []) h
    rw [hcode]
    trivial
  · exact asks_compute ht _

theorem asks_moves (srcs dests : List Reg) :
    Asks u cx s ((srcs.zip dests).forM fun (r, d) => move r d) :=
  asks_forM fun _ _ => asks_move _ _

/-- What is built for a jump to code of the same function. -/
theorem asks_jumpInside {id : DefnId} (hcalled : u.called id) (args : List Reg) (node : Node) :
    Asks u cx s (do
      let params ← (← block id).params.mapM regOf
      if params.length ≠ args.length then
        throw (.jumpArity (← symbol id) args.length params.length)
      let copies ← freshRegs args.length
      (args.zip copies).forM fun (a, r) => move a r
      (copies.zip params).forM fun (r, p) => move r p
      terminate (.nop node)) := by
  refine (asks_block _).bind fun k => (asks_mapM fun _ _ => asks_regOf _).bind fun params => ?_
  dsimp only
  split
  · exact (asks_symbol (.inl hcalled)).bind fun _ => asks_throw_bind _ _
  · exact (asks_freshRegs _).bind fun copies => (asks_moves _ _).bind fun _ => (asks_moves _ _).bind
      fun _ => asks_terminate trivial

theorem asks_jump {c : BlockCall} (hcalled : u.called (cx.program.resolve c.block))
    (hargs : ∀ a ∈ c.args, u.Operand cx.program a) :
    Asks u cx s (jump c) := by
  unfold jump
  refine asks_resolve_bind ((asks_atoms hargs).bind fun args => (asks_label? _).bind fun label => ?_)
  refine asks_read_bind ?_
  dsimp only
  split
  · exact asks_symbol_bind (.inl hcalled) fun _ hname => asks_terminate ⟨_, hcalled, hname⟩
  · split
    · exact (asks_pure _).bind (asks_jumpInside hcalled args)
    · exact (asks_newLabel hcalled).bind (asks_jumpInside hcalled args)

theorem asks_tail {t : Option Mil.Tail} (ht : ∀ t' ∈ t, u.Tail cx.program t') :
    Asks u cx s (tail t) := by
  unfold tail
  split
  · have ht := ht _ rfl
    exact asks_jump (ht.calls _ (.head _)) ht.atoms
  · refine (asks_entered (ht _ rfl).atoms).bind_of fun h _ _ => asks_terminate ?_
    obtain ⟨-, code, hcode⟩ := acts_entered (w := 0) (D := []) h
    rw [hcode]
    trivial
  · exact (asks_atoms (ht _ rfl).atoms).bind fun _ => asks_terminate trivial
  · refine asks_read_bind ((asks_freshRegs _).bind fun dests => (asks_compute ht _).bind fun _ => ?_)
    refine asks_isOpen.bind fun isOpen => ?_
    split
    · exact asks_terminate trivial
    · exact asks_pure _

/-! ### Bodies -/

section Bodies

variable {as : List Atom} {calls : List BlockCall} {refs : List DefnId} {prims : List String}

theorem asks_call (h : u.Cover cx.program as calls refs prims) {c : BlockCall} (hc : c ∈ calls)
    (hargs : c.args ⊆ as) : Asks u cx s (jump c) :=
  asks_jump (h.calls c hc) fun a ha => h.atoms a (hargs ha)

end Bodies

theorem asks_otherwise {default : Option BlockCall} (hdefault : ∀ c ∈ default, Asks u cx s (jump c)) :
    Asks u cx s (otherwise default) := by
  cases default with
  | none => exact asks_terminate trivial
  | some c => exact hdefault c rfl

theorem asks_placeAlts (count : Nat) (alts : List (Cfun × BlockCall)) (targets : List (Nat × Node)) :
    Asks u cx s (placeAlts count alts targets) := by
  induction alts generalizing targets with
  | nil => exact asks_pure _
  | cons alt alts ih =>
      unfold placeAlts
      split
      · exact ih targets
      · exact asks_freshNode.bind fun _ => (ih _).bind fun _ => asks_pure _

/-- What is built for the cases once they have their nodes. -/
theorem asks_cases {placed : List (Node × BlockCall)} {default : Option BlockCall} {i : Instr}
    (hi : i.Mentions u s) (hplaced : ∀ q ∈ placed, Asks u cx s (jump q.2))
    (hdefault : ∀ c ∈ default, Asks u cx s (jump c)) (rest : Option Node) : Asks u cx s (do
      terminate i
      placed.forM fun (n, c) => do
        startAt n
        jump c
      match rest with
      | none => return
      | some n =>
        startAt n
        otherwise default) := by
  refine (asks_terminate hi).bind fun _ => Asks.bind (asks_forM fun q hq => ?_) fun _ => ?_
  · exact (asks_startAt _).bind fun _ => hplaced q hq
  cases rest with
  | none => exact asks_pure _
  | some n => exact (asks_startAt _).bind fun _ => asks_otherwise hdefault

theorem asks_choose {scrut : Atom} {alts : List (Cfun × BlockCall)} {default : Option BlockCall}
    (hscrut : u.Operand cx.program scrut)
    (halts : ∀ {s' q}, q ∈ alts → Asks u cx s' (jump q.2))
    (hdefault : ∀ {s'}, ∀ c ∈ default, Asks u cx s' (jump c)) :
    Asks u cx s (choose scrut alts default) := by
  unfold choose
  refine (asks_atom hscrut).bind fun value => ?_
  split
  · exact asks_otherwise hdefault
  rename_i first call others
  refine asks_read_bind (asks_freshReg.bind fun tag => (asks_loadWord _ _ _).bind fun _ => ?_)
  refine (asks_placeAlts _ _ _).bind_of fun {_ placed b} hplaced _ _ => ?_
  obtain ⟨-, hmem, -⟩ := acts_placeAlts (R := lawful cx 0) (D := []) hplaced
  have hjump {s' : Symbols} (q : Node × BlockCall) (hq : q ∈ placed.1) : Asks u cx s' (jump q.2) := by
    obtain ⟨k, hk⟩ := hmem q hq
    exact halts hk
  dsimp only
  split
  · refine (asks_pure _).bind fun rest => asks_cases ?_ hjump hdefault rest
    trivial
  · refine (asks_freshNode.map some).bind fun rest => asks_cases ?_ hjump hdefault rest
    trivial

theorem asks_code {c : Mil.Code} (hc : u.Code cx.program c) : Asks u cx s (code c) := by
  induction c generalizing s with
  | bind vars t next ih =>
      have ht : u.Tail cx.program t :=
        ⟨fun _ h => hc.atoms _ (List.mem_append_left _ h), fun _ h => hc.calls _ (List.mem_append_left _ h),
          fun _ h => hc.refs _ (List.mem_append_left _ h), fun _ h => hc.prims _ (List.mem_append_left _ h)⟩
      have hnext : u.Code cx.program next :=
        ⟨fun _ h => hc.atoms _ (List.mem_append_right _ h), fun _ h => hc.calls _ (List.mem_append_right _ h),
          fun _ h => hc.refs _ (List.mem_append_right _ h), fun _ h => hc.prims _ (List.mem_append_right _ h)⟩
      refine (asks_mapM fun _ _ => asks_regOf _).bind fun dests => ?_
      refine (asks_bind (fun t' ht' => Option.mem_some.mp ht' ▸ ht) _).bind fun _ => ?_
      refine asks_isOpen.bind fun isOpen => ?_
      split
      · exact ih hnext
      · exact asks_pure _
  | done t =>
      have ht : u.Tail cx.program t :=
        ⟨hc.atoms, hc.calls, hc.refs, fun _ h => hc.prims _ (by simpa [tails] using h)⟩
      exact asks_tail fun t' ht' => Option.mem_some.mp ht' ▸ ht
  | branch cond c d =>
      refine (asks_atom (hc.atoms _ (.head _))).bind fun r => asks_freshNode.bind
        fun ifSo => asks_freshNode.bind fun ifNot => Asks.bind (asks_terminate trivial) fun _ => ?_
      refine (asks_startAt _).bind fun _ => Asks.bind ?_ fun _ => (asks_startAt _).bind fun _ => ?_
      · exact asks_call hc (.head _) fun _ h => List.mem_append_left _ (.tail _ h)
      · exact asks_call hc (.tail _ (.head _)) fun _ h => List.mem_append_right _ h
  | case scrut alts default =>
      have hjump {s' : Symbols} {c : BlockCall} (hmem : c ∈ (Mil.Code.case scrut alts default).calls) :
          Asks u cx s' (jump c) :=
        asks_call hc hmem fun _ h => .tail _ (List.mem_flatMap.mpr ⟨c, hmem, h⟩)
      refine asks_choose (hc.atoms _ (.head _)) (fun hq => ?_) fun c hdefault => ?_
      · exact hjump (List.mem_append_left _ (List.mem_map_of_mem hq))
      · exact hjump (List.mem_append_right _ (Option.mem_toList.mpr hdefault))

/-- Only blocks wait in line that may be called, and what they name may be named. -/
theorem asks_drain (hclosed : u.Closed cx.program) (fuel : Nat) : Asks u cx s (drain fuel) := by
  induction fuel generalizing s with
  | zero => exact asks_pure _
  | succ fuel ih =>
      unfold drain
      refine asks_get.bind_of fun h _ hwaiting => ?_
      obtain ⟨rfl, rfl⟩ := Builds.get_iff.mp h
      split
      · exact asks_pure _
      rename_i id pending hpending
      rw [hpending] at hwaiting
      obtain ⟨hid, hwaiting⟩ := List.forall_mem_cons.mp hwaiting
      refine Asks.bind (asks_setPending hwaiting) fun _ => (asks_label? _).bind fun label => ?_
      refine (asks_block _).bind_of fun hblock _ _ => ?_
      obtain ⟨hk, rfl⟩ := Builds.block_iff.mp hblock
      dsimp only
      split
      · rename_i c hc
        exact (asks_startAt _).bind fun _ => (asks_code (hclosed hid hk hc)).bind fun _ => ih
      · exact ih

theorem asks_drainAll (hclosed : u.Closed cx.program) : Asks u cx s drainAll :=
  asks_read_bind (asks_drain hclosed _)

/-! ### Functions -/

variable {id : DefnId}

theorem asks_finish (name : String) (params : List Reg) (results : Nat) (entry : Node) (exported : Bool) :
    Asks u cx s (finish name params results entry exported) := asks_get.bind fun _ => asks_pure _

theorem asks_blockFunction (hclosed : u.Closed cx.program) (hid : u.called id) (d : Defn) (k : Block) :
    Asks u cx s (blockFunction id d k) :=
  (asks_mapM fun _ _ => asks_regOf _).bind fun _ => (asks_newLabel hid).bind fun _ =>
    (asks_drainAll hclosed).bind fun _ => (asks_symbol (.inl hid)).bind fun _ =>
      asks_read_bind (asks_finish _ _ _ _ _)

theorem asks_closureFunction (hclosed : u.Closed cx.program) (hid : u.coded id) (d : Defn) {k : Closure}
    (hk : ∀ t ∈ k.tail, u.Tail cx.program t) : Asks u cx s (closureFunction id d k) := by
  unfold closureFunction
  refine asks_freshReg.bind fun record => (asks_mapM fun _ _ => asks_regOf _).bind fun args => ?_
  refine asks_freshNode.bind fun entry => (asks_startAt _).bind fun _ => ?_
  refine Asks.bind (asks_forM fun q _ => (asks_regOf _).bind fun _ => asks_loadWord _ _ _) fun _ => ?_
  refine (asks_tail hk).bind fun _ => (asks_drainAll hclosed).bind fun _ => ?_
  refine (asks_codeSymbol (.inr (.inr hid))).bind fun _ => asks_read_bind ?_
  exact (asks_finish _ _ _ _ _).bind fun _ => (asks_symbol (.inr (.inr hid))).bind fun _ => asks_pure _

/-- What is built for a top-level definition once it has its symbols. -/
theorem asks_topCode (hclosed : u.Closed cx.program) {name : String}
    (hname : u.outer name ∨ ∃ id, u.memory id ∧ s.names.lookup id = some name) {l : TopLevel}
    (hl : ∀ t ∈ l.tail, u.Tail cx.program t) (init : String) : Asks u cx s (do
      let entry ← freshNode
      startAt entry
      let dests ← freshRegs l.lhs.length
      bind dests l.tail
      if ← isOpen then
        dests.zipIdx.forM fun (r, i) => do
          let offset ← wordOffset i
          emit (.store (← read).chunk (.global name offset) [] r)
        terminate (.ret [])
      drainAll
      return (← finish init [] 0 entry false, (⟨name, l.lhs.length, init⟩ : Global))) := by
  refine asks_freshNode.bind fun entry => (asks_startAt _).bind fun _ => ?_
  refine (asks_freshRegs _).bind fun dests => (asks_bind hl _).bind fun _ => ?_
  have hrest : Asks u cx s (do
      drainAll
      return (← finish init [] 0 entry false, (⟨name, l.lhs.length, init⟩ : Global))) :=
    (asks_drainAll hclosed).bind fun _ => (asks_finish _ _ _ _ _).bind fun _ => asks_pure _
  refine asks_isOpen.bind fun isOpen => ?_
  dsimp only
  split
  · refine Asks.bind (asks_forM fun q _ => ?_) fun _ => Asks.bind (asks_terminate trivial) fun _ => hrest
    exact (asks_wordOffset _).bind fun _ => asks_read_bind (asks_emit fun _ => hname)
  · exact hrest

end Steps

end BuildM

/-! ### Without limits -/

theorem Uses.operand_any (p : Mil.Program) (a : Atom) : any.Operand p a := by
  cases a with
  | top id index site =>
      intro d _
      split
      · split <;> trivial
      · trivial
  | temp | lit => trivial

theorem Uses.cover_any (p : Mil.Program) (as : List Atom) (calls : List BlockCall) (refs : List DefnId)
    (prims : List String) : any.Cover p as calls refs prims :=
  ⟨fun a _ => operand_any p a, fun _ _ => trivial, fun _ _ => trivial, fun _ _ => trivial⟩

theorem Uses.closed_any (p : Mil.Program) : any.Closed p := fun _ _ _ => cover_any _ _ _ _ _

end Mil.Rtl
